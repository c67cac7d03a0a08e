import TurboXSL.StepLaws

namespace TurboXSL

open Library Parse

/-!
# The abbreviation `//`

`//` is compiled to a step to all descendant elements and the step behind it
is taken from those, so what stands directly below a node of the path before
it is missed, unless that node is itself below another one.
-/

/-- The elements of a name. -/
structure Named (heap : Heap) (name : Bytes) (n : NodeId) : Prop where
  element : (heap.get n).type = .element
  name : (heap.get n).name = some name

theorem named_iff {heap : Heap} {name : Bytes} {n : NodeId} :
    xpathNodeKind (heap.get n) (some (.named name)) = true ↔ Named heap name n := by
  unfold xpathNodeKind
  rw [decide_eq_true_eq]
  constructor
  · rintro ⟨element, name⟩
    exact ⟨element, name⟩
  · rintro ⟨element, name⟩
    exact ⟨element, name⟩

/-! ## Steps downwards -/

/-- A relation to nodes further down. -/
abbrev Downwards := Links → NodeId → NodeId → Prop

/-- What a step yields from a member stands in this relation to the node of the
document that the member stands for, and passes the node test. -/
def Yields (heap : Heap) (inside region : NodeId → Prop) (head : ExprNode) (down : Downwards) : Prop :=
  ∀ m, region m → Exists fun items => stepItems head heap m = some items ∧
    ∀ e, .node e ∈ items ↔ (inside (origin heap m) ∧ down heap.links (origin heap m) e) ∧
      xpathNodeKind (heap.get e) head.kind = true

section Steps

variable {heap : Heap} {inside region : NodeId → Prop} (closed : Region heap inside region)

include closed

theorem Region.item_inside {n : NodeId} (member : inside n) : item heap n = .node n := by
  unfold item
  rw [closed.origin_inside member, if_neg]
  rcases closed.linked.typed member with type | type | type <;> rw [type] <;> decide

/-- A member that stands for a node of the document is that item. -/
theorem Region.item_node {n : NodeId} (member : region n) (document : inside (origin heap n)) :
    item heap n = .node (origin heap n) := by
  have image := (closed.image member).1
  unfold item
  rw [if_neg]
  rw [image.type]
  rcases closed.linked.typed document with type | type | type <;>
  · rw [type]
    decide

/-- A member that is a node of the document. -/
theorem Region.inside_of_item {n m : NodeId} (member : region n) (same : item heap n = .node m) :
    inside m ∧ origin heap n = m := by
  rcases closed.image member with ⟨image, _, document | attribute_⟩
  · unfold item at same
    split at same
    · cases same
    · cases same
      exact ⟨document, rfl⟩
  · unfold item at same
    rw [if_pos (image.type.trans attribute_.type)] at same
    cases same

omit closed in
theorem AttributeNode.childless {n : NodeId} (attribute_ : AttributeNode heap inside n) (e : NodeId) :
    ¬ Child heap.links n e := by
  rintro ⟨row, children, at_⟩
  have none_ : heap.links.children n = none := attribute_.children
  rw [Children, none_] at children
  cases children
  cases at_

/-- The items of a list of nodes of the document. -/
theorem Region.mem_items {nodes : List NodeId} (members : ∀ n ∈ nodes, inside n) {kind : Option Kind}
    (e : NodeId) : .node e ∈ ((numbered (ofKind heap kind nodes)).map fun s => item heap s.1) ↔
      e ∈ nodes ∧ xpathNodeKind (heap.get e) kind = true := by
  have items : (numbered (ofKind heap kind nodes)).map (fun s => item heap s.1) =
      (ofKind heap kind nodes).map Item.node := by
    rw [items_numbered]
    apply List.map_congr_left
    intro n at_
    exact closed.item_inside (members n (List.mem_filter.mp at_).1)
  rw [items, List.mem_map]
  constructor
  · rintro ⟨n, at_, same⟩
    cases same
    exact List.mem_filter.mp at_
  · exact fun at_ => ⟨e, List.mem_filter.mpr at_, rfl⟩

/-- A step by name, or to all children, leads to children. -/
theorem Region.yields_child {head : ExprNode} (down : head.type = .select ∨ head.type = .all) :
    Yields heap inside region head Child := by
  intro m member
  have plain : ¬ BesideAxis head.type := by
    rcases down with type | type <;>
    · rw [type]
      unfold BesideAxis
      decide
  have axis : stepItems head heap (origin heap m) = (axisNodes .select heap (origin heap m) head.kind).map
      (List.map fun s => item heap s.1) := by
    rcases down with type | type
    · rw [stepItems_axis (by rw [type]; rfl), type]
    · rw [stepItems_axis (by rw [type]; rfl), type]
      rfl
  rw [closed.stepItems_origin plain member, axis]
  rcases closed.image member with ⟨image, _, document | attribute_⟩
  · rcases closed.linked.axisNodes_child document head.kind with ⟨row, children, found⟩
    refine ⟨_, congrArg (Option.map _) found, fun e => ?_⟩
    have inRow : ∀ n ∈ row, inside n := fun n at_ =>
      closed.linked.forest.inside_child document ⟨row, children, at_⟩
    rw [closed.mem_items inRow, child_iff children, and_iff_right document]
  · refine ⟨[], ?_, fun e => ?_⟩
    · have none_ : siblings heap none = some [] := siblings_of_chain .nil nofun
      unfold axisNodes
      rw [attribute_.children]
      simp only [none_]
      rfl
    · constructor
      · exact nofun
      · rintro ⟨⟨_, child⟩, _⟩
        exact (attribute_.childless e child).elim

/-- A step to the descendants. -/
theorem Region.yields_descendant {head : ExprNode} (descendant : head.type = .descendant) :
    Yields heap inside region head Below := by
  intro m member
  have plain : ¬ BesideAxis head.type := by
    rw [descendant]
    unfold BesideAxis
    decide
  rw [closed.stepItems_origin plain member, stepItems_axis (by rw [descendant]; rfl), descendant]
  rcases closed.image member with ⟨_, _, document | attribute_⟩
  · rcases closed.linked.axisNodes_descendant document head.kind with ⟨nodes, _, lower, found⟩
    refine ⟨_, congrArg (Option.map _) found, fun e => ?_⟩
    have inNodes : ∀ n ∈ nodes, inside n := fun n at_ =>
      closed.linked.forest.inside_within document ((lower n).mp at_).to_reflTransGen
    rw [closed.mem_items inNodes, lower, and_iff_right document]
  · refine ⟨[], ?_, fun e => ?_⟩
    · unfold axisNodes
      rw [attribute_.children]
      unfold addAllChildren
      rfl
    · constructor
      · intro impossible
        cases impossible
      · rintro ⟨⟨_, below⟩, _⟩
        rcases Relation.TransGen.head'_iff.mp below with ⟨child, first, _⟩
        exact (attribute_.childless child first).elim

end Steps

/-- The same for all members of a list. -/
theorem Yields.mapM {heap : Heap} {inside region : NodeId → Prop} {head : ExprNode}
    {down : Downwards} (yields : Yields heap inside region head down)
    {nodes : List NodeId} (members : ∀ n ∈ nodes, region n) :
    Exists fun lists => nodes.mapM (stepItems head heap) = some lists ∧
      ∀ e, .node e ∈ lists.flatten ↔
        (Exists fun m => m ∈ nodes ∧ inside (origin heap m) ∧ down heap.links (origin heap m) e) ∧
          xpathNodeKind (heap.get e) head.kind = true := by
  induction nodes with
  | nil => exact ⟨[], rfl, fun e => ⟨nofun, fun both => by rcases both with ⟨⟨_, at_, _⟩, _⟩; cases at_⟩⟩
  | cons node rest inductionHypothesis =>
      rcases yields node (members node List.mem_cons_self) with ⟨items, here, spec⟩
      rcases inductionHypothesis fun n at_ => members n (List.mem_cons_of_mem _ at_) with
        ⟨lists, there, specs⟩
      refine ⟨items :: lists, ?_, fun e => ?_⟩
      · rw [List.mapM_cons, here, there]
        rfl
      · rw [List.flatten_cons, List.mem_append, spec, specs]
        constructor
        · rintro (⟨first, kind⟩ | ⟨⟨m, at_, later⟩, kind⟩)
          · exact ⟨⟨node, List.mem_cons_self, first⟩, kind⟩
          · exact ⟨⟨m, List.mem_cons_of_mem _ at_, later⟩, kind⟩
        · rintro ⟨⟨m, at_, holds⟩, kind⟩
          rcases List.mem_cons.mp at_ with rfl | later
          · exact .inl ⟨holds, kind⟩
          · exact .inr ⟨⟨m, later, holds⟩, kind⟩

/-! ## Documents stay as they are -/

section Later

variable {heap after : Heap} {inside region : NodeId → Prop} (closed : Region heap inside region)
  (same : ∀ n, inside n → after.get n = heap.get n)

include closed same

theorem Region.child_keep {n e : NodeId} (member : inside n) :
    Child after.links n e ↔ Child heap.links n e := by
  rcases closed.linked.row member with ⟨row, children, members⟩
  have kept : Children after.links n row := by
    unfold Children
    rw [show after.links.children n = (heap.get n).children from
      congrArg XmlNode.children (same n member)]
    apply Row.congr children
    · exact fun m at_ => congrArg XmlNode.parent (same m (members m at_))
    · exact fun m at_ => congrArg XmlNode.next (same m (members m at_))
    · exact fun m at_ => congrArg XmlNode.prev (same m (members m at_))
  rw [child_iff kept, child_iff children]

theorem Region.below_keep {n e : NodeId} (member : inside n) :
    Below after.links n e ↔ Below heap.links n e := by
  constructor
  · intro below
    have both : Below heap.links n e ∧ inside e := by
      induction below with
      | single child =>
          have here := (closed.child_keep same member).mp child
          exact ⟨.single here, closed.linked.forest.inside_child member here⟩
      | tail _ child inductionHypothesis =>
          have here := (closed.child_keep same inductionHypothesis.2).mp child
          exact ⟨.tail inductionHypothesis.1 here,
            closed.linked.forest.inside_child inductionHypothesis.2 here⟩
    exact both.1
  · intro below
    have both : Below after.links n e ∧ inside e := by
      induction below with
      | single child =>
          exact ⟨.single ((closed.child_keep same member).mpr child),
            closed.linked.forest.inside_child member child⟩
      | tail _ child inductionHypothesis =>
          exact ⟨.tail inductionHypothesis.1 ((closed.child_keep same inductionHypothesis.2).mpr child),
            closed.linked.forest.inside_child inductionHypothesis.2 child⟩
    exact both.1

end Later

section Evaluation

variable {Num : Type} [Double Num] {env : Env Num} {depth : Nat} {heap : Heap}
  {inside region : NodeId → Prop}

/-- An evaluation leaves the documents as they are. -/
theorem Setting.evaluated (setting : Setting env heap inside region) {tree : Expr} {current : NodeId}
    {value : RValue Num} {after : Heap}
    (done : xpathExecuteScalar env depth tree current heap = some (value, after)) :
    ∀ n, inside n → after.get n = heap.get n := by
  have allocates := (xpathExecuteScalar_framed env depth _ _ _ _ _ setting.old done).allocates
  intro n member
  have known := setting.closed.document member
  exact allocates.same n (setting.closed.bound known) fun here => setting.apart n here known

/-- The nodes of the document that an expression yields. -/
def Shows (env : Env Num) (depth : Nat) (tree : Expr) (current : NodeId) (heap : Heap) (e : NodeId) :
    Prop :=
  Exists fun items => itemsOf env depth tree current heap = some items ∧ .node e ∈ items

omit [Double Num] in
/-- The members of a node-set that are nodes of the document. -/
theorem Found.shows {env : Env Num} {after : Heap} {grown : NodeId → Prop} {value : RValue Num}
    {nodes : List NodeId} (found : Found env after inside region grown value nodes) {m : NodeId} :
    .node m ∈ nodes.map (item after) ↔
      Exists fun n => n ∈ nodes ∧ inside (origin after n) ∧ origin after n = m := by
  rw [List.mem_map]
  constructor
  · rintro ⟨n, at_, same⟩
    have known := found.setting.closed.inside_of_item (found.inRegion n at_) same
    exact ⟨n, at_, known.2 ▸ known.1, known.2⟩
  · rintro ⟨n, at_, document, same⟩
    refine ⟨n, at_, ?_⟩
    rw [found.setting.closed.item_node (found.inRegion n at_) document, same]

/-- A step downwards behind an expression that stays in its region. -/
theorem Stays.shows_step {before : Expr} (stays : Stays env (xpathExecuteScalar env depth before))
    (some_ : before ≠ .null) {head : ExprNode} (axis : head.type.isAxis = true) {down : Downwards}
    (yields : ∀ {heap : Heap} {region : NodeId → Prop}, Region heap inside region →
      Yields heap inside region head down)
    (leads : ∀ {n e : NodeId}, inside n → down heap.links n e → inside e)
    (keep : ∀ {after : Heap} {n e : NodeId}, (∀ n, inside n → after.get n = heap.get n) → inside n →
      (down after.links n e ↔ down heap.links n e))
    (setting : Setting env heap inside region) {current : NodeId} (member : region current)
    (e : NodeId) :
    Shows env depth (.node head before .null) current heap e ↔
      (Exists fun m => Shows env depth before current heap m ∧ inside m ∧ down heap.links m e) ∧
        xpathNodeKind (heap.get e) head.kind = true := by
  unfold Shows
  cases begun : xpathExecuteScalar env depth before current heap with
  | none =>
      have stuck := stepOver_none (.inl axis) some_ begun
      unfold itemsOf
      rw [begun, stuck]
      constructor
      · rintro ⟨_, impossible, _⟩
        cases impossible
      · rintro ⟨⟨_, ⟨_, impossible, _⟩, _⟩, _⟩
        cases impossible
  | some result =>
      rcases result with ⟨value, middle⟩
      rcases stays.found setting member begun with ⟨grown, nodes, found⟩
      have same := setting.evaluated begun
      rcases (yields found.setting.closed).mapM found.inRegion with ⟨lists, listed, spec⟩
      have further := found.stepOver (.inl axis) begun some_
      rw [listed] at further
      have before_ : itemsOf env depth before current heap = some (nodes.map (item middle)) := by
        unfold itemsOf
        rw [begun]
        simp only [Option.bind_eq_bind, Option.bind_some]
        rw [found.listed]
        rfl
      rw [further.itemsOf, before_]
      have kind : inside e → xpathNodeKind (middle.get e) head.kind =
          xpathNodeKind (heap.get e) head.kind := fun document => by rw [same e document]
      constructor
      · rintro ⟨_, ⟨⟩, at_⟩
        rcases (spec e).mp at_ with ⟨⟨m, inNodes, document, below⟩, passes⟩
        have further := (keep same document).mp below
        refine ⟨⟨_, ⟨_, rfl, found.shows.mpr ⟨m, inNodes, document, rfl⟩⟩, document, further⟩, ?_⟩
        rw [← kind (leads document further)]
        exact passes
      · rintro ⟨⟨m, ⟨_, ⟨⟩, at_⟩, document, below⟩, passes⟩
        rcases found.shows.mp at_ with ⟨n, inNodes, _, rfl⟩
        refine ⟨_, rfl, (spec e).mpr ⟨⟨n, inNodes, document, (keep same document).mpr below⟩, ?_⟩⟩
        rw [kind (leads document below)]
        exact passes

/-- What an expression yields are nodes of the document. -/
theorem Stays.shows_inside {tree : Expr} (stays : Stays env (xpathExecuteScalar env depth tree))
    (setting : Setting env heap inside region) {current : NodeId} (member : region current)
    {m : NodeId} (shows_ : Shows env depth tree current heap m) : inside m := by
  rcases shows_ with ⟨items, yielded, at_⟩
  unfold itemsOf at yielded
  rcases Option.bind_eq_some_iff.mp yielded with ⟨⟨value, after⟩, done, yielded⟩
  rcases Option.bind_eq_some_iff.mp yielded with ⟨nodes, listed, same⟩
  cases same
  rcases stays.found setting member done with ⟨grown, nodes', found⟩
  rw [found.listed] at listed
  cases listed
  rcases found.shows.mp at_ with ⟨n, _, document, rfl⟩
  exact document

theorem shows_root (setting : Setting env heap inside region) (current m : NodeId) :
    Shows env depth (.leaf { type := .root }) current heap m ↔ m = env.rootNode := by
  unfold Shows
  rw [(setting.root_meets current).itemsOf, setting.closed.item_inside setting.root]
  constructor
  · rintro ⟨_, ⟨⟩, at_⟩
    cases List.mem_singleton.mp at_
    rfl
  · rintro rfl
    exact ⟨_, rfl, List.mem_singleton_self _⟩

/-- A step by name behind an expression. -/
theorem Stays.shows_child {before : Expr} (stays : Stays env (xpathExecuteScalar env depth before))
    (some_ : before ≠ .null) (setting : Setting env heap inside region) {current : NodeId}
    (member : region current) (name : Bytes) (e : NodeId) :
    Shows env depth ((Step.named name).attach before) current heap e ↔
      (Exists fun m => Shows env depth before current heap m ∧ Child heap.links m e) ∧
        Named heap name e := by
  have select : (Step.named name).head.type = .select := rfl
  have step := stays.shows_step some_ rfl (fun closed => closed.yields_child (.inl select))
    (fun document child => setting.closed.linked.forest.inside_child document child)
    (fun same document => setting.closed.child_keep same document) setting member e
  rw [show xpathNodeKind (heap.get e) (Step.named name).head.kind = true ↔ Named heap name e from
    named_iff] at step
  refine step.trans (and_congr_left' (exists_congr fun m => and_congr_right fun shows_ => ?_))
  exact and_iff_right (stays.shows_inside setting member shows_)

/-- A step to descendants behind an expression. -/
theorem Stays.shows_descendant {before : Expr} (stays : Stays env (xpathExecuteScalar env depth before))
    (some_ : before ≠ .null) (setting : Setting env heap inside region) {current : NodeId}
    (member : region current) {head : ExprNode} (descendant : head.type = .descendant) (e : NodeId) :
    Shows env depth (.node head before .null) current heap e ↔
      (Exists fun m => Shows env depth before current heap m ∧ Below heap.links m e) ∧
        xpathNodeKind (heap.get e) head.kind = true := by
  have step := stays.shows_step some_ (by rw [descendant]; rfl)
    (fun closed => closed.yields_descendant descendant)
    (fun document below => setting.closed.linked.forest.inside_within document below.to_reflTransGen)
    (fun same document => setting.closed.below_keep same document) setting member e
  refine step.trans (and_congr_left' (exists_congr fun m => and_congr_right fun shows_ => ?_))
  exact and_iff_right (stays.shows_inside setting member shows_)

/-- `//` and a name: below a node of the path before it there is the owner. -/
theorem Stays.shows_deep {before : Expr} (stays : Stays env (xpathExecuteScalar env depth before))
    (deeper : Stays env (xpathExecuteScalar env depth (descendantStep before)))
    (some_ : before ≠ .null) (setting : Setting env heap inside region) {current : NodeId}
    (member : region current) (name : Bytes) (e : NodeId) :
    Shows env depth ((Step.named name).attach (descendantStep before)) current heap e ↔
      (Exists fun m => Exists fun owner => Shows env depth before current heap m ∧
        Below heap.links m owner ∧ Child heap.links owner e) ∧ Named heap name e := by
  rw [deeper.shows_child nofun setting member name e]
  apply and_congr_left'
  unfold descendantStep
  constructor
  · rintro ⟨owner, shows_, child⟩
    rcases (stays.shows_descendant some_ setting member rfl owner).mp shows_ with ⟨⟨m, first, below⟩, _⟩
    exact ⟨m, owner, first, below, child⟩
  · rintro ⟨m, owner, first, below, child⟩
    refine ⟨owner, (stays.shows_descendant some_ setting member rfl owner).mpr ⟨⟨m, first, below⟩, ?_⟩,
      child⟩
    -- what has a child is an element, and the descendants are no roots
    have linked := setting.closed.linked
    have document := stays.shows_inside setting member first
    have above := linked.forest.inside_within document below.to_reflTransGen
    have type : (heap.get owner).type = .element := by
      rcases linked.below_type document below with element | text
      · exact element
      · exact absurd text (linked.holder (linked.forest.inside_child above child) child.parent)
    unfold xpathNodeKind
    rw [decide_eq_true_eq]
    exact .inl type

end Evaluation

/-! ## What `//` selects -/

section Selections

variable {Num : Type} [Double Num] (env : Env Num) (depth : Nat)

/-- The nodes of the document that the text of an expression selects. -/
def Selected (text : Bytes) (current : NodeId) (heap : Heap) (e : NodeId) : Prop :=
  Exists fun items => yields env depth text current heap = some items ∧ .node e ∈ items

theorem selected_iff {text : Bytes} {tree : Expr} (path : Path text tree) (current : NodeId)
    (heap : Heap) (e : NodeId) :
    Selected env depth text current heap e ↔ Shows env depth tree current heap e := by
  unfold Selected Shows
  rw [yields_eq path]

/-- `descendant::n` behind a path. -/
def descendantText (text name : Bytes) : Bytes := text ++ slash ++ (lit "descendant::" ++ name)

/-- `//n` behind a path. -/
def deepText (text name : Bytes) : Bytes := text ++ slash ++ slash ++ name

end Selections

/-- `descendant::n` selects the descendants named `n`; `//n` those whose owner
is below a node of the path.  So the two are the same exactly where every node
of the path with a child named `n` is itself below another one, and `//n` from
the root misses nothing exactly where the root has no such child. -/
theorem deep_selects_iff {Num : Type} [Double Num] {env : Env Num} (depth : Nat) {heap : Heap}
    {inside region : NodeId → Prop} {text : Bytes} {tree : Expr} (path : Path text tree)
    {name : Bytes} (named : IsName name) (setting : Setting env heap inside region)
    {current : NodeId} (member : region current) :
    (∀ e, Selected env depth (descendantText text name) current heap e ↔
      (Exists fun m => Selected env depth text current heap m ∧ Below heap.links m e) ∧
        Named heap name e) ∧
    ((∀ e, Selected env depth (deepText text name) current heap e ↔
        Selected env depth (descendantText text name) current heap e) ↔
      ∀ m e, Selected env depth text current heap m → Child heap.links m e → Named heap name e →
        Exists fun top => Selected env depth text current heap top ∧ Below heap.links top m) ∧
    ((∀ e, Selected env depth (slash ++ slash ++ name) current heap e ↔
        Below heap.links env.rootNode e ∧ Named heap name e) ↔
      ∀ e, Child heap.links env.rootNode e → ¬ Named heap name e) := by
  have notAll : (Step.named name).spelling ≠ lit "*" := by
    intro same
    have begins := named.begins
    rw [show name = lit "*" from same] at begins
    exact absurd begins (by decide)
  have stays := path.stays env depth
  have deeper : Stays env (xpathExecuteScalar env depth (descendantStep tree)) :=
    (Path.deepAll path).stays env depth
  rcases path.alone with ⟨head, children, rfl⟩
  have some_ : Expr.node head children .null ≠ .null := nofun
  have descendant : ∀ e, Selected env depth (descendantText text name) current heap e ↔
      (Exists fun m => Selected env depth text current heap m ∧ Below heap.links m e) ∧
        Named heap name e := by
    intro e
    have step : Path (descendantText text name)
        ((Step.axis (lit "descendant::", .descendant) name).attach (.node head children .null)) :=
      .step path (.axis (lit "descendant::", .descendant) name) ⟨by decide, named⟩
    rw [selected_iff env depth step]
    simp only [selected_iff env depth path]
    have head_ : (Step.axis (lit "descendant::", .descendant) name).head.type = .descendant := rfl
    have shows_ := stays.shows_descendant some_ setting member head_ e
    exact shows_.trans (and_congr_right' named_iff)
  have deep : ∀ e, Selected env depth (deepText text name) current heap e ↔
      (Exists fun m => Exists fun owner => Selected env depth text current heap m ∧
        Below heap.links m owner ∧ Child heap.links owner e) ∧ Named heap name e := by
    intro e
    have step : Path (deepText text name)
        ((Step.named name).attach (descendantStep (.node head children .null))) :=
      .deep path (.named name) named notAll
    rw [selected_iff env depth step]
    simp only [selected_iff env depth path]
    exact stays.shows_deep deeper some_ setting member name e
  have absolute : ∀ e, Selected env depth (slash ++ slash ++ name) current heap e ↔
      (Exists fun owner => Below heap.links env.rootNode owner ∧ Child heap.links owner e) ∧
        Named heap name e := by
    intro e
    have step : Path (slash ++ slash ++ name)
        ((Step.named name).attach (descendantStep (.leaf { type := .root }))) :=
      .firstDeep (.named name) named notAll
    rw [selected_iff env depth step,
      stays_root.shows_deep (Path.firstDeepAll.stays env depth) nofun setting member name e]
    apply and_congr_left'
    constructor
    · rintro ⟨m, owner, first, below, child⟩
      cases (shows_root setting current m).mp first
      exact ⟨owner, below, child⟩
    · rintro ⟨owner, below, child⟩
      exact ⟨_, owner, (shows_root setting current _).mpr rfl, below, child⟩
  refine ⟨descendant, ?_, ?_⟩
  · constructor
    · intro same m e first child here
      have found := (same e).mpr ((descendant e).mpr ⟨⟨m, first, .single child⟩, here⟩)
      rcases (deep e).mp found with ⟨⟨top, owner, outer, below, last⟩, _⟩
      rw [last.owner_unique child] at below
      exact ⟨top, outer, below⟩
    · intro inner e
      rw [deep e, descendant e]
      apply and_congr_left
      intro here
      constructor
      · rintro ⟨m, owner, first, below, child⟩
        exact ⟨m, first, below.tail child⟩
      · rintro ⟨m, first, below⟩
        rcases Relation.TransGen.tail'_iff.mp below with ⟨owner, within, child⟩
        rcases within_iff_eq_or_below.mp within with rfl | further
        · rcases inner owner e first child here with ⟨top, outer, above⟩
          exact ⟨top, owner, outer, above, child⟩
        · exact ⟨m, owner, first, further, child⟩
  · constructor
    · intro all e child here
      rcases (absolute e).mp ((all e).mpr ⟨.single child, here⟩) with ⟨⟨owner, below, last⟩, _⟩
      rw [last.owner_unique child] at below
      exact Nat.lt_irrefl _ below.lt
    · intro none_ e
      rw [absolute e]
      apply and_congr_left
      intro here
      constructor
      · rintro ⟨owner, below, child⟩
        exact below.tail child
      · intro below
        rcases Relation.TransGen.tail'_iff.mp below with ⟨owner, within, child⟩
        rcases within_iff_eq_or_below.mp within with rfl | further
        · exact absurd here (none_ e child)
        · exact ⟨owner, further, child⟩

theorem deep_selects_iff_nested :
    Selected (Env.bare Int 0) 0 (descendantText (lit "a") (lit "a")) 1 (memoryAfter 60 nestedText) 3 ↔
      (Exists fun m => Selected (Env.bare Int 0) 0 (lit "a") 1 (memoryAfter 60 nestedText) m ∧
        Below (memoryAfter 60 nestedText).links m 3) ∧ Named (memoryAfter 60 nestedText) (lit "a") 3 :=
  (deep_selects_iff 0 path_a ⟨by decide, forall_bytes (by decide), by decide⟩ nestedText_setting
    ⟨Nat.zero_le 1, by decide⟩).1 3

/-- `r//a` misses a child of `r`, and `//r` the document element. -/
theorem deep_misses_children : Exists fun heap =>
    DoParse .empty nestedText (some 0) heap ∧
      yields (Env.bare Int 0) 0 (lit "r/descendant::a") 0 heap = some [.node 3] ∧
      yields (Env.bare Int 0) 0 (lit "r//a") 0 heap = some [] ∧
      (heap.get 1).type = .element ∧ (heap.get 1).name = some (lit "r") ∧
      yields (Env.bare Int 0) 0 (lit "//r") 0 heap = some [] :=
  ⟨memoryAfter 60 nestedText, ⟨60, rfl⟩, by decide, by decide, by decide, by decide, by decide⟩

end TurboXSL
