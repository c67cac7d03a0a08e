import TurboXSL.EvaluationWrites
import TurboXSL.Instructions
import TurboXSL.Realms
import TurboXSL.SortedVisits
import TurboXSL.SortLaws

namespace TurboXSL

open Library Output

/-!
# Writes by the chart

The functions that evaluate, sort and build results, each from a memory that
fits a chart to one that fits a later chart.
-/

/-! ## Memories that fit later charts -/

/-- The memory fits a later chart, of which something holds. -/
def Onward (start : Heap) (chart : Chart) (after : Heap) (post : Chart → Prop) : Prop :=
  Exists fun later => chart ≤ later ∧ Charted start later after ∧ post later

/-- A pointer to a loose node. -/
def Loose (chart : Chart) (p : Ptr) : Prop := ∀ n, p = some n → chart.realm n = some .loose

/-- The nodes that a selection may show: those of documents, of the trees that
are being built, and loose ones. -/
def Visible (start : Heap) (chart : Chart) (n : NodeId) : Prop :=
  Given start n ∨ chart.realm n = some .tree ∨ chart.realm n = some .loose

/-- The nodes of the documents there were are linked to each other, and
nothing else in the memory has children. -/
structure Documents (start : Heap) : Prop where
  children : ∀ n c, (start.get n).children = some c → Given start c
  next : ∀ n m, Given start n → (start.get n).next = some m → Given start m

section Charts

variable {start heap middle after : Heap} {chart later : Chart} {post goal : Chart → Prop}

theorem Charted.stay (charted : Charted start chart heap) (here : post chart) :
    Onward start chart heap post := ⟨chart, le_refl chart, charted, here⟩

theorem Onward.bind (onward : Onward start chart middle post)
    (next : ∀ later, chart ≤ later → Charted start later middle → post later →
      Onward start later after goal) : Onward start chart after goal := by
  rcases onward with ⟨between, grows, charted, here⟩
  rcases next between grows charted here with ⟨last, further, found⟩
  exact ⟨last, le_trans grows further, found⟩

theorem Onward.weaken (onward : Onward start chart after post)
    (implies : ∀ later, chart ≤ later → post later → goal later) :
    Onward start chart after goal := by
  rcases onward with ⟨last, grows, charted, here⟩
  exact ⟨last, grows, charted, implies last grows here⟩

theorem Loose.none_ (chart : Chart) : Loose chart none := by
  intro n impossible
  cases impossible

theorem Loose.some_ {n : NodeId} (here : chart.realm n = some .loose) : Loose chart (some n) := by
  rintro m ⟨⟩
  exact here

theorem Loose.mono {p : Ptr} (loose : Loose chart p) (known : chart ≤ later) :
    Loose later p := fun n same => known n _ (loose n same)

theorem Visible.mono {n : NodeId} (visible : Visible start chart n) (known : chart ≤ later) :
    Visible start later n :=
  visible.imp_right (Or.imp (known n _) (known n _))

variable (charted : Charted start chart heap)

include charted

theorem Charted.next_given (documents : Documents start) {n m : NodeId} (given : Given start n)
    (link : (heap.get n).next = some m) : Given start m := by
  rw [charted.same n given.1] at link
  exact documents.next n m given link

theorem Charted.next_visible (documents : Documents start) {n m : NodeId}
    (visible : Visible start chart n) (link : (heap.get n).next = some m) :
    Visible start chart m := by
  rcases visible with document | tree | loose
  · exact .inl (charted.next_given documents document link)
  · exact .inr (.inl ((charted.forest.behind tree link).1))
  · exact .inr (.inr (charted.onward n m loose link))

/-- What is visible and an attribute is loose. -/
theorem Charted.visible_attribute {n : NodeId} (visible : Visible start chart n)
    (type : (heap.get n).type = .attribute) : chart.realm n = some .loose := by
  rcases visible with document | tree | loose
  · rw [charted.same n document.1] at type
    exact absurd type document.2
  · exact absurd type (charted.plain n tree)
  · exact loose

/-- The nodes of a list that begins with a loose one are loose. -/
theorem Charted.loose_siblings {p : Ptr} {nodes : List NodeId} (loose : Loose chart p)
    (listed : siblings heap p = some nodes) : ∀ n ∈ nodes, chart.realm n = some .loose := by
  have chain := (follow_eq_some_iff.mp listed).1
  clear listed
  induction chain with
  | nil => exact fun n impossible => absurd impossible List.not_mem_nil
  | cons node rest tail inductionHypothesis =>
      have here := loose node rfl
      intro n member
      rcases List.mem_cons.mp member with same | behind
      · rw [same]
        exact here
      · exact inductionHypothesis (fun m link => charted.onward node m here link) n behind

end Charts

/-! ## Single steps -/

namespace Charted

variable {start heap : Heap} {chart : Chart} (charted : Charted start chart heap)

include charted

/-- A new node of some kind. -/
theorem newNode (realm : Realm) (name : Option Bytes) (type : NodeType)
    (plain : realm = .tree → type ≠ .attribute) :
    Onward start chart (xmlNewNode heap name type).1 fun later =>
      later.realm heap.size = some realm := by
  have grown := charted.alloc realm { type := type, name := name, uid := some heap.size }
    rfl rfl rfl rfl rfl plain
  refine ⟨_, charted.le_grow _ realm none, grown, ?_⟩
  exact chart.grown realm (Nat.le_refl _) (Nat.lt_succ_self _)

/-- A change of what is no link. -/
theorem write {node : NodeId} {realm : Realm} (here : chart.realm node = some realm)
    (change : XmlNode → XmlNode)
    (same : ∀ cell, (change cell).type = cell.type ∧ (change cell).children = cell.children ∧
      (change cell).next = cell.next ∧ (change cell).prev = cell.prev ∧
      (change cell).parent = cell.parent ∧ (change cell).attributes = cell.attributes) :
    Charted start chart (heap.modify node change) := by
  rcases same (heap.get node) with ⟨type, children, next, prev, parent, attributes⟩
  refine charted.modify here _ ⟨children, fun _ => ⟨type, next, prev, parent⟩, ?_, ?_⟩
  · intro _ a link
    exact .inl (attributes ▸ link)
  · intro _ m link
    exact .inl (next ▸ link)

/-- A loose node is linked to another one. -/
theorem link {node : NodeId} (here : chart.realm node = some .loose) (change : XmlNode → XmlNode)
    (children : ∀ cell, (change cell).children = cell.children)
    (next : Loose chart (change (heap.get node)).next) :
    Charted start chart (heap.modify node change) := by
  refine charted.modify here _ ⟨children _, fun impossible => ?_, fun impossible => ?_, ?_⟩
  · cases impossible
  · rcases impossible with impossible | impossible <;> cases impossible
  · intro _ m found
    exact .inr (next m found)

/-- A list of loose nodes is linked anew. -/
theorem relink {nodes : List NodeId} (all : ∀ n ∈ nodes, chart.realm n = some .loose) (prev : Ptr)
    (pos : Nat) : Charted start chart (relink heap prev pos nodes) := by
  induction nodes generalizing heap prev pos with
  | nil => exact charted
  | cons node rest inductionHypothesis =>
      refine inductionHypothesis ?_ (fun n member => all n (List.mem_cons_of_mem node member)) _ _
      refine charted.link (all node List.mem_cons_self) _ (fun _ => rfl) ?_
      exact fun n here => all n (List.mem_cons_of_mem node (List.mem_of_mem_head? here))

/-- A node gets attributes. -/
theorem attach {node : NodeId} {realm : Realm} (here : chart.realm node = some realm)
    {first : Ptr} (loose : Loose chart first) :
    Charted start chart (heap.modify node fun cell => { cell with attributes := first }) := by
  refine charted.modify here _ ⟨rfl, fun _ => ⟨rfl, rfl, rfl, rfl⟩, ?_, ?_⟩
  · intro _ a found
    exact .inr (loose a found)
  · intro _ m found
    exact .inl found

/-- The attributes of a node that is not loose are loose. -/
theorem attributes_loose {n : NodeId} (kind : chart.realm n = some .tree ∨ chart.realm n = some .frame) :
    Loose chart (heap.get n).attributes := fun a found => charted.attributes n a kind found

end Charted

/-! ## Evaluation -/

/-- The children of a node were children before, or they are new. -/
structure Brings (before after : Heap) : Prop where
  grows : before.size ≤ after.size
  children : ∀ n c, (after.get n).children = some c →
    (Exists fun m => (before.get m).children = some c) ∨ before.size ≤ c ∧ c < after.size

/-- The documents that are loaded are whole: their nodes have children in the
document. -/
def Loader.Whole (loader : Loader) : Prop :=
  ∀ ⦃heap text after root⦄, loader.load heap text = some (after, root) → Brings heap after

theorem Brings.of_same {before after : Heap} (grows : before.size ≤ after.size)
    (same : ∀ n, (after.get n).children = (before.get n).children ∨
      Exists fun m => (after.get n).children = (before.get m).children ∨
        (after.get n).children = none) : Brings before after where
  grows := grows
  children := by
    intro n c link
    rcases same n with kept | ⟨m, copied | empty⟩
    · exact .inl ⟨n, kept ▸ link⟩
    · exact .inl ⟨m, copied ▸ link⟩
    · rw [empty] at link
      cases link

theorem brings_writing {Num : Type} {env : Env Num} (documents : env.documents.Whole)
    (strings : env.strings.Whole) : Writing env Brings where
  refl := fun heap => .of_same (Nat.le_refl _) fun _ => .inl rfl
  trans := by
    intro before middle after first second
    refine ⟨Nat.le_trans first.grows second.grows, fun n c link => ?_⟩
    rcases second.children n c link with ⟨m, old⟩ | new
    · refine (first.children m c old).imp_right fun new => ?_
      exact ⟨new.1, Nat.lt_of_lt_of_le new.2 second.grows⟩
    · exact .inr ⟨Nat.le_trans first.grows new.1, new.2⟩
  copy := by
    intro heap prev src position original uid
    refine .of_same (Nat.le_succ _) fun n => ?_
    by_cases new : n = heap.size
    · refine .inr ⟨src, .inl ?_⟩
      rw [new, heap.alloc_get_same]
      rfl
    · exact .inl (congrArg XmlNode.children (heap.alloc_get_of_ne _ new))
  make := by
    intro heap type content
    refine .of_same (Nat.le_succ _) fun n => ?_
    by_cases new : n = heap.size
    · refine .inr ⟨n, .inr ?_⟩
      rw [new, heap.alloc_get_same]
    · exact .inl (congrArg XmlNode.children (heap.alloc_get_of_ne _ new))
  place := by
    intro heap node change relinks
    refine .of_same (Nat.le_refl _) fun n => .inl ?_
    by_cases at_ : n = node
    · rw [at_, heap.modify_get_same, relinks]
    · rw [heap.modify_get_of_ne _ at_]
  current := by
    intro heap l node _
    refine .of_same (Nat.le_refl _) fun n => .inl ?_
    by_cases at_ : n = l
    · rw [at_, heap.modify_get_same]
    · rw [heap.modify_get_of_ne _ at_]
  documents := fun loaded => documents loaded
  strings := fun loaded => strings loaded

/-- What an evaluation does to the memory. -/
structure Evaluated (locals : Ptr) (before after : Heap) : Prop where
  allocates : Allocates locals before after
  brings : Brings before after

/-- A scope in which expressions are evaluated: its locals have a node, and its
documents are whole. -/
structure Scope {Num : Type} (env : Env Num) (l : NodeId) : Prop where
  locals : env.locals = some l
  documents : env.documents.Whole
  strings : env.strings.Whole

theorem Scope.writing {Num : Type} {env : Env Num} {l : NodeId} (scope : Scope env l) :
    Writing env Brings := brings_writing scope.documents scope.strings

theorem Scope.old {Num : Type} {env : Env Num} {l : NodeId} (scope : Scope env l) {heap : Heap}
    (small : l < heap.size) : Old env.locals heap := by
  intro n here
  rw [scope.locals] at here
  cases here
  exact small

section Evaluation

variable {Num : Type} {env : Env Num} {l : NodeId} (scope : Scope env l) {depth : Nat}
  {heap middle after : Heap}

include scope

theorem Scope.refl (heap : Heap) : Evaluated env.locals heap heap :=
  ⟨.refl _ _, scope.writing.refl heap⟩

theorem Scope.trans (small : l < heap.size) (first : Evaluated env.locals heap middle)
    (second : Evaluated env.locals middle after) : Evaluated env.locals heap after :=
  ⟨first.allocates.trans (scope.old small) second.allocates,
    scope.writing.trans first.brings second.brings⟩

variable [Double Num]

/-- The current node is set and the expression evaluated. -/
theorem Scope.executes (small : l < heap.size) {etree : Expr} {current : NodeId}
    {value : RValue Num}
    (run : xpathExecuteScalar env depth etree current
      (heap.modify l fun cell => { cell with parent := some current }) = some (value, after)) :
    Evaluated env.locals heap after ∧ ∀ nodeset, value = .nodeset nodeset → Fresh heap after nodeset := by
  have placed := setCurrent_allocates heap scope.locals current
  have old := scope.old small
  have outcome := Outcome.later placed old
    (xpathExecuteScalar_framed env depth etree _ _ _ _ (old.grow placed) run)
  have brings := scope.writing.trans (scope.writing.current heap current scope.locals)
    (scope.writing.xpathExecuteScalar depth etree run)
  exact ⟨⟨outcome.allocates, brings⟩, outcome.fresh⟩

theorem Scope.evalString (small : l < heap.size) {etree : Expr} {current : NodeId}
    {text : Option Bytes}
    (evaluated : xpathEvalString env depth etree current heap = some (text, after)) :
    Evaluated env.locals heap after := by
  unfold xpathEvalString at evaluated
  split at evaluated
  next =>
    cases evaluated
    exact scope.refl heap
  next =>
    rcases Option.bind_eq_some_iff.mp evaluated with ⟨own, here, evaluated⟩
    rcases Option.bind_eq_some_iff.mp evaluated with ⟨⟨value, last⟩, run, evaluated⟩
    rcases Option.bind_eq_some_iff.mp evaluated with ⟨string, _, done⟩
    cases done
    cases scope.locals.symm.trans here
    exact (scope.executes small run).1

theorem Scope.evalSelection (small : l < heap.size) {etree : Expr} {current : NodeId} {set : Ptr}
    (evaluated : xpathEvalSelection env (xpathExecuteScalar env depth) etree current heap =
      some (set, after)) :
    Evaluated env.locals heap after ∧ Fresh heap after set := by
  have framed := xpathEvalSelection_allocates env (xpathExecuteScalar_framed env depth)
    (scope.old small) evaluated
  have brings := scope.writing.xpathEvalSelection (scope.writing.xpathExecuteScalar depth) evaluated
  exact ⟨⟨framed.1, brings⟩, framed.2⟩

omit [Double Num] in
/-- The loop evaluates one text after the other. -/
theorem Scope.processLoop {evaluate : Bytes → Heap → Option (Bytes × Heap)}
    (evaluates : ∀ {expr : Bytes} {heap after : Heap} {res : Bytes}, l < heap.size →
      evaluate expr heap = some (res, after) → Evaluated env.locals heap after)
    {fuel : Nat} {s res : Bytes} {texts : List Bytes} (small : l < heap.size)
    (done : processLoop evaluate fuel s heap = some (res, texts, after)) :
    Evaluated env.locals heap after := by
  induction fuel generalizing s res texts heap with
  | zero =>
      cases s with
      | nil =>
          cases done
          exact scope.refl _
      | cons c s => cases done
  | succ fuel inductionHypothesis =>
      cases s with
      | nil =>
          cases done
          exact scope.refl _
      | cons c s =>
          unfold TurboXSL.processLoop at done
          split at done
          · split at done
            · rcases Option.bind_eq_some_iff.mp done with ⟨⟨res', ev, last⟩, further, done⟩
              cases done
              exact inductionHypothesis small further
            · rcases Option.bind_eq_some_iff.mp done with ⟨⟨r, between⟩, first, done⟩
              have step := evaluates small first
              dsimp only at done
              split at done
              · cases done
                exact step
              · rcases Option.bind_eq_some_iff.mp done with ⟨⟨res', ev, last⟩, further, done⟩
                cases done
                have larger := Nat.lt_of_lt_of_le small step.allocates.grows
                exact scope.trans small step (inductionHypothesis larger further)
          · dsimp only at done
            rcases Option.bind_eq_some_iff.mp done with ⟨⟨res', ev, last⟩, further, done⟩
            cases done
            exact inductionHypothesis small further

theorem Scope.processString (small : l < heap.size) {context : NodeId}
    {string res : Option Bytes} {texts : List Bytes}
    (done : xmlProcessString env depth context string heap = some (res, texts, after)) :
    Evaluated env.locals heap after := by
  unfold xmlProcessString at done
  cases string with
  | none =>
      cases done
      exact scope.refl _
  | some s =>
      dsimp only at done
      split at done
      · cases done
        exact scope.refl _
      · rcases Option.bind_eq_some_iff.mp done with ⟨⟨text, ev, last⟩, further, done⟩
        cases done
        refine scope.processLoop ?_ small further
        intro expr before last text small evaluated
        rcases Option.bind_eq_some_iff.mp evaluated with ⟨etree, _, evaluated⟩
        rcases Option.bind_eq_some_iff.mp evaluated with ⟨⟨r, end_⟩, run, done⟩
        cases done
        exact scope.evalString small run

theorem Scope.sortKeys (small : l < heap.size) {sort : SortChild} {nodes : List NodeId}
    {keys : List (NodeId × Option Bytes)}
    (read : sortKeys env depth sort nodes heap = some (keys, after)) :
    Evaluated env.locals heap after := by
  induction nodes generalizing heap keys with
  | nil =>
      cases read
      exact scope.refl _
  | cons node rest inductionHypothesis =>
      rcases Option.bind_eq_some_iff.mp read with ⟨⟨key, between⟩, first, read⟩
      rcases Option.bind_eq_some_iff.mp read with ⟨⟨others, last⟩, further, done⟩
      cases done
      have step : Evaluated env.locals heap between := by
        unfold sortKey at first
        split at first
        next =>
          rcases Option.map_eq_some_iff.mp first with ⟨text, _, done⟩
          cases done
          exact scope.refl _
        next => exact scope.evalString small first
      have larger := Nat.lt_of_lt_of_le small step.allocates.grows
      exact scope.trans small step (inductionHypothesis larger further)

end Evaluation

/-! ## Building -/

section Building

variable {Num : Type} {env : Env Num} {l : NodeId} (scope : Scope env l) {depth : Nat}
  {start heap after : Heap} {chart : Chart} (charted : Charted start chart heap)
  (frame : chart.realm l = some .frame)

include scope charted frame

/-- What an evaluation makes is loose. -/
theorem Scope.loose (evaluated : Evaluated env.locals heap after) :
    Onward start chart after fun later => ∀ p, Fresh heap after p → Loose later p := by
  have allocates : Allocates (some l) heap after := scope.locals ▸ evaluated.allocates
  refine ⟨_, charted.le_grow after.size .loose none,
    charted.added frame allocates evaluated.brings.children, ?_⟩
  intro p fresh n here
  exact chart.grown .loose (fresh n here).1 (fresh n here).2

variable [Double Num]

omit scope charted frame in
/-- An attribute is made and named, its content found, and then it is put in
front of the others. -/
theorem copyAttribute_parts {context newnode a : NodeId} {texts : List Bytes} {named : Heap}
    (naming : named = (xmlNewNode heap none .attribute).1.modify heap.size fun cell =>
      { cell with name := ((xmlNewNode heap none .attribute).1.get a).name })
    (done : copyAttribute env depth context newnode a heap = some (texts, after)) :
    Exists fun content => Exists fun last =>
      (last = named ∨ Exists fun ev =>
        xmlProcessString env depth context (named.get a).content named = some (content, ev, last)) ∧
      after = (last.modify heap.size fun cell => { cell with
        content := content, next := (last.get newnode).attributes }).modify newnode fun cell =>
          { cell with attributes := some heap.size } := by
  unfold copyAttribute at done
  dsimp only at done
  split at done
  · rcases Option.bind_eq_some_iff.mp done with ⟨⟨content, ev, last⟩, filled, done⟩
    rcases Option.map_eq_some_iff.mp filled with ⟨text, _, same⟩
    cases same
    cases done
    exact ⟨_, _, .inl naming.symm, rfl⟩
  · rcases Option.bind_eq_some_iff.mp done with ⟨⟨content, ev, last⟩, filled, done⟩
    cases done
    exact ⟨content, last, .inr ⟨ev, naming ▸ filled⟩, rfl⟩

theorem Scope.copyAttribute {context newnode a : NodeId} {texts : List Bytes}
    (tree : chart.realm newnode = some .tree)
    (done : copyAttribute env depth context newnode a heap = some (texts, after)) :
    Onward start chart after fun _ => True := by
  have made := charted.newNode .loose none .attribute fun impossible => by cases impossible
  refine made.bind fun second known charted loose => ?_
  rcases copyAttribute_parts rfl done with ⟨text, last, filled, rfl⟩
  have named := charted.write loose (fun cell => { cell with
    name := ((xmlNewNode heap none .attribute).1.get a).name }) fun _ => ⟨rfl, rfl, rfl, rfl, rfl, rfl⟩
  have content : Onward start second last fun _ => True := by
    rcases filled with rfl | ⟨ev, filled⟩
    · exact named.stay trivial
    · have small := (named.made (known l _ frame)).2
      exact (scope.loose named (known l _ frame) (scope.processString small filled)).weaken
        fun _ _ _ => trivial
  refine content.bind fun third grows charted _ => ?_
  have owner := grows _ _ (known newnode _ tree)
  have linked := charted.link (grows _ _ loose) (fun cell => { cell with
    content := text, next := (last.get newnode).attributes }) (fun _ => rfl)
    (charted.attributes_loose (.inl owner))
  exact (linked.attach owner (.some_ (grows _ _ loose))).stay trivial

theorem Scope.copyAttributes {context newnode : NodeId} {attributes : List NodeId}
    {texts : List Bytes} (tree : chart.realm newnode = some .tree)
    (done : copyAttributes env depth context newnode attributes heap = some (texts, after)) :
    Onward start chart after fun _ => True := by
  induction attributes generalizing heap chart texts with
  | nil =>
      cases done
      exact charted.stay trivial
  | cons a rest inductionHypothesis =>
      rcases Option.bind_eq_some_iff.mp done with ⟨⟨first, middle⟩, here, done⟩
      rcases Option.bind_eq_some_iff.mp done with ⟨⟨later, last⟩, others, done⟩
      cases done
      refine (scope.copyAttribute charted frame tree here).bind fun second known charted _ => ?_
      exact inductionHypothesis charted (known l _ frame) (known newnode _ tree) others

/-- A copy is appended, with its attributes or its text. -/
theorem Scope.copyNodeToResult {context parent src node : NodeId} {texts : List Bytes}
    (tree : chart.realm parent = some .tree) (plain : (heap.get src).type ≠ .attribute)
    (done : copyNodeToResult env depth context parent src heap = some (node, texts, after)) :
    Onward start chart after fun later => later.realm node = some .tree := by
  rcases Option.bind_eq_some_iff.mp done with ⟨⟨grown, new⟩, appended, done⟩
  rcases charted.append tree plain appended with ⟨rfl, size, charted_, -, -⟩
  have new : (chart.grow heap.size (heap.size + 1) .tree (some parent)).realm heap.size = some .tree :=
    chart.grown .tree (Nat.le_refl _) (Nat.lt_succ_self _)
  have made : Onward start chart grown fun later => later.realm heap.size = some .tree :=
    ⟨_, charted.le_grow _ _ _, charted_, new⟩
  refine made.bind fun second known charted here => ?_
  have named := charted.write here (fun cell => { cell with
    name := (grown.get src).name, flags := (grown.get src).flags })
    fun _ => ⟨rfl, rfl, rfl, rfl, rfl, rfl⟩
  dsimp only at done
  split at done
  · rcases Option.bind_eq_some_iff.mp done with ⟨attributes, _, done⟩
    rcases Option.bind_eq_some_iff.mp done with ⟨⟨ev, last⟩, copied, done⟩
    cases done
    refine (scope.copyAttributes named (known l _ frame) here copied).weaken ?_
    exact fun last grows _ => grows _ _ here
  · rcases Option.bind_eq_some_iff.mp done with ⟨content, _, done⟩
    cases done
    refine Charted.stay ?_ here
    exact named.write here (fun cell => { cell with content := some (untilNul content) })
      fun _ => ⟨rfl, rfl, rfl, rfl, rfl, rfl⟩
  · cases done
    exact named.stay here

omit scope frame in
theorem Charted.moveAttribute {parent src : NodeId} (tree : chart.realm parent = some .tree)
    (loose : chart.realm src = some .loose) :
    Onward start chart (moveAttribute parent src heap) fun _ => True := by
  have made := charted.newNode .loose none .attribute fun impossible => by cases impossible
  refine made.bind fun second known charted new => ?_
  have linked := charted.link new (fun cell => { cell with
    name := ((xmlNewNode heap none .attribute).1.get src).name
    next := ((xmlNewNode heap none .attribute).1.get parent).attributes
    content := ((xmlNewNode heap none .attribute).1.get src).content }) (fun _ => rfl)
    (charted.attributes_loose (.inl (known _ _ tree)))
  have attached := linked.attach (known _ _ tree) (.some_ new)
  have moved := attached.write (known _ _ loose) (fun cell => { cell with content := none })
    fun _ => ⟨rfl, rfl, rfl, rfl, rfl, rfl⟩
  exact moved.stay trivial

omit scope charted frame in
/-- What is done with one node and with those behind it. -/
theorem copyNodesToResult_parts {context parent src : NodeId} {fuel : Nat} {texts : List Bytes}
    (done : copyNodesToResult env depth context (fuel + 1) parent (some src) heap =
      some (texts, after)) :
    Exists fun first => Exists fun middle => Exists fun later =>
      ((heap.get src).type = .attribute ∧ middle = moveAttribute parent src heap ∨
        (heap.get src).type ≠ .attribute ∧ Exists fun r => Exists fun own => Exists fun grown =>
          copyNodeToResult env depth context parent src heap = some (r, own, grown) ∧
          copyNodesToResult env depth context fuel r (grown.get src).children grown =
            some (first, middle)) ∧
      copyNodesToResult env depth context fuel parent (middle.get src).next middle =
        some (later, after) := by
  unfold copyNodesToResult at done
  dsimp only at done
  split at done
  next type =>
    rw [Option.bind_eq_bind, Option.bind_some] at done
    rcases Option.bind_eq_some_iff.mp done with ⟨⟨later, last⟩, others, done⟩
    cases done
    exact ⟨[], _, later, .inl ⟨type, rfl⟩, others⟩
  next plain =>
    rcases Option.bind_eq_some_iff.mp done with ⟨⟨r, own, grown⟩, single, done⟩
    rcases Option.bind_eq_some_iff.mp done with ⟨⟨below, middle⟩, inside, done⟩
    rw [Option.bind_eq_bind, Option.bind_some] at done
    rcases Option.bind_eq_some_iff.mp done with ⟨⟨later, last⟩, others, done⟩
    cases done
    exact ⟨below, middle, later, .inr ⟨plain, r, own, grown, single, inside⟩, others⟩

/-- Whatever is visible can be copied below the trees. -/
theorem Scope.copyNodesToResult (documents : Documents start) {context parent : NodeId}
    {fuel : Nat} {src : Ptr} {texts : List Bytes} (tree : chart.realm parent = some .tree)
    (visible : ∀ n, src = some n → Visible start chart n)
    (done : copyNodesToResult env depth context fuel parent src heap = some (texts, after)) :
    Onward start chart after fun _ => True := by
  induction fuel generalizing heap after chart parent src texts with
  | zero =>
      cases src with
      | none =>
          cases done
          exact charted.stay trivial
      | some src => cases done
  | succ fuel inductionHypothesis =>
      cases src with
      | none =>
          cases done
          exact charted.stay trivial
      | some src =>
          have here := visible src rfl
          rcases copyNodesToResult_parts done with ⟨first, middle, later, copied, others⟩
          have step : Onward start chart middle fun _ => True := by
            rcases copied with ⟨type, rfl⟩ | ⟨plain, r, own, grown, single, inside⟩
            · exact charted.moveAttribute tree (charted.visible_attribute here type)
            · refine (scope.copyNodeToResult charted frame tree plain single).bind ?_
              intro second known charted new
              refine inductionHypothesis charted (known l _ frame) new ?_ inside
              exact fun n link => charted.children _ n link
          refine step.bind fun second known charted _ => ?_
          refine inductionHypothesis charted (known l _ frame) (known _ _ tree) ?_ others
          exact fun n link => charted.next_visible documents (here.mono known) link

/-- `xsl:copy-of` copies a selection, or makes a text. -/
theorem Scope.copyOf (documents : Documents start) {fuel : Nat} {select : Bytes}
    {result documentNode : NodeId} {texts : List Bytes} (tree : chart.realm result = some .tree)
    (done : instructionCopyOf env depth fuel select result documentNode heap =
      some (texts, after)) : Onward start chart after fun _ => True := by
  unfold instructionCopyOf at done
  rcases Option.bind_eq_some_iff.mp done with ⟨⟨value, middle⟩, evaluated, done⟩
  have small := (charted.made frame).2
  have step : Evaluated env.locals heap middle ∧
      ∀ nodeset, value = .nodeset nodeset → Fresh heap middle nodeset := by
    unfold xpathEvalExpression at evaluated
    rcases Option.bind_eq_some_iff.mp evaluated with ⟨etree, _, evaluated⟩
    split at evaluated
    next =>
      cases evaluated
      refine ⟨scope.refl heap, ?_⟩
      rintro nodeset ⟨⟩
    next =>
      rcases Option.bind_eq_some_iff.mp evaluated with ⟨own, here, run⟩
      cases scope.locals.symm.trans here
      exact scope.executes small run
  refine (scope.loose charted frame step.1).bind fun second known charted loose => ?_
  dsimp only at done
  split at done
  next nodeset =>
    refine scope.copyNodesToResult charted (known _ _ frame) documents (known _ _ tree) ?_ done
    exact fun n here => .inr (.inr (loose _ (step.2 _ rfl) n here))
  next =>
    rcases Option.bind_eq_some_iff.mp done with ⟨text, _, done⟩
    cases text with
    | none =>
        cases done
        exact charted.stay trivial
    | some text =>
        rcases Option.bind_eq_some_iff.mp done with ⟨⟨grown, node⟩, appended, done⟩
        cases done
        rcases charted.append (known _ _ tree) (by decide) appended with ⟨rfl, size, charted_, -, -⟩
        have written := charted_.write (second.grown .tree (Nat.le_refl _) (Nat.lt_succ_self _))
          (fun cell => { cell with content := some (untilNul text) })
          fun _ => ⟨rfl, rfl, rfl, rfl, rfl, rfl⟩
        exact ⟨_, charted.le_grow _ _ _, written, trivial⟩

/-- A selection of loose nodes is sorted. -/
theorem Scope.sortSelection {selection sorted : Ptr} {sort : SortChild}
    (loose : Loose chart selection)
    (done : xpathSortSelection env depth heap selection sort = some (after, sorted)) :
    Onward start chart after fun later => Loose later sorted := by
  unfold xpathSortSelection at done
  cases selection with
  | none =>
      cases done
      exact charted.stay (.none_ chart)
  | some head =>
      dsimp only at done
      split at done
      next =>
        cases done
        exact charted.stay loose
      next =>
        rcases Option.bind_eq_some_iff.mp done with ⟨nodes, listed, done⟩
        rcases Option.bind_eq_some_iff.mp done with ⟨⟨keys, middle⟩, read, done⟩
        rcases Option.bind_eq_some_iff.mp done with ⟨sorted_, exchanged, done⟩
        cases done
        have members := charted.loose_siblings loose listed
        have evaluated := scope.sortKeys (charted.made frame).2 read
        refine (scope.loose charted frame evaluated).bind fun second known charted _ => ?_
        have all : ∀ n ∈ sorted_.map Prod.fst, second.realm n = some .loose := by
          intro n member
          rcases List.mem_map.mp member with ⟨key, inside, rfl⟩
          have old := (exchangeRounds_spec exchanged).1.mem_iff.mp inside
          refine known _ _ (members _ ?_)
          rw [← sortKeys_nodes read]
          exact List.mem_map_of_mem old
        refine Charted.stay (charted.relink all none 0) ?_
        exact fun n here => all n (List.mem_of_mem_head? here)

end Building

section Trees

variable {start heap after : Heap} {chart : Chart} (charted : Charted start chart heap)

include charted

theorem Charted.child_tree {n c : NodeId} (tree : chart.realm n = some .tree)
    (link : (heap.get n).children = some c) : chart.realm c = some .tree := by
  rcases charted.forest.row tree with ⟨row, found, members⟩
  have first : heap.links.children n = some c := link
  unfold Children at found
  rw [first] at found
  cases found
  exact members c List.mem_cons_self

/-- The owner of new attributes is in the trees. -/
theorem Charted.attributeOwner {fuel : Nat} {node owner : Ptr}
    (tree : ∀ n, node = some n → chart.realm n = some .tree)
    (found : attributeOwner heap fuel node = some owner) :
    ∀ n, owner = some n → chart.realm n = some .tree := by
  induction fuel generalizing node with
  | zero =>
      cases node with
      | none =>
          cases found
          exact tree
      | some node => cases found
  | succ fuel inductionHypothesis =>
      cases node with
      | none =>
          cases found
          exact tree
      | some node =>
          unfold TurboXSL.attributeOwner at found
          split at found
          next =>
            refine inductionHypothesis ?_ found
            exact fun n up => (charted.forest.up (tree node rfl) up).1
          next =>
            cases found
            exact tree

theorem Charted.setAttribute {result : NodeId} {name : Option Bytes} {value : Bytes}
    (tree : chart.realm result = some .tree)
    (done : setAttribute result name value heap = some after) :
    Onward start chart after fun _ => True := by
  rcases Option.bind_eq_some_iff.mp done with ⟨owner, found, done⟩
  have inside := charted.attributeOwner (by rintro n ⟨⟩; exact tree) found
  cases owner with
  | none =>
      cases done
      exact charted.stay trivial
  | some owner =>
      have here := inside owner rfl
      rcases Option.bind_eq_some_iff.mp done with ⟨attributes, listed, done⟩
      dsimp only at done
      split at done
      next attr among =>
        cases done
        have loose := charted.loose_siblings (charted.attributes_loose (.inl here)) listed attr
          (List.mem_of_find?_eq_some among)
        refine Charted.stay ?_ trivial
        exact charted.write loose _ fun _ => ⟨rfl, rfl, rfl, rfl, rfl, rfl⟩
      next =>
        cases done
        have made := charted.newNode .loose none .attribute fun impossible => by cases impossible
        refine made.bind fun second known charted new => ?_
        have linked := charted.link new (fun cell => { cell with
          name := name
          next := ((xmlNewNode heap none .attribute).1.get owner).attributes
          flags := xmlFlagNoescape
          content := some (untilNul (skipSpaces value)) }) (fun _ => rfl)
          (charted.attributes_loose (.inl (known _ _ here)))
        exact (linked.attach (known _ _ here) (.some_ new)).stay trivial

theorem Charted.copyAttributeNode {result documentNode : NodeId}
    (tree : chart.realm result = some .tree) :
    Onward start chart (copyAttributeNode result documentNode heap) fun _ => True := by
  unfold TurboXSL.copyAttributeNode
  have inside : ∀ n, (if (heap.get result).type = .empty then (heap.get result).parent
      else some result) = some n → chart.realm n = some .tree := by
    intro n here
    split at here
    · exact (charted.forest.up tree here).1
    · cases here
      exact tree
  generalize (if (heap.get result).type = .empty then (heap.get result).parent
    else some result) = owner at inside
  cases owner with
  | none => exact charted.stay trivial
  | some node =>
      dsimp only
      split
      next =>
        have made := charted.newNode .loose (heap.get documentNode).name .attribute
          fun impossible => by cases impossible
        refine made.bind fun second known charted new => ?_
        have owner := known _ _ (inside node rfl)
        have filled := charted.write new (fun cell => { cell with
          content := ((xmlNewNode heap (heap.get documentNode).name .attribute).1.get
            documentNode).content }) fun _ => ⟨rfl, rfl, rfl, rfl, rfl, rfl⟩
        split
        next => exact (filled.attach owner (.some_ new)).stay trivial
        next first here =>
          refine Charted.stay ?_ trivial
          exact filled.link (filled.attributes _ _ (.inl owner) here)
            (fun cell => { cell with next := some heap.size }) (fun _ => rfl) (.some_ new)
      next => exact charted.stay trivial

/-- Raw text is marked in the trees only. -/
theorem Charted.rejectTextNodeEscape {fuel : Nat} {n : Ptr}
    (tree : ∀ m, n = some m → chart.realm m = some .tree)
    (done : rejectTextNodeEscape fuel n heap = some after) : Charted start chart after := by
  induction fuel generalizing n heap after with
  | zero =>
      cases n with
      | none =>
          cases done
          exact charted
      | some n => cases done
  | succ fuel inductionHypothesis =>
      cases n with
      | none =>
          cases done
          exact charted
      | some n =>
          have here := tree n rfl
          rcases Option.bind_eq_some_iff.mp done with ⟨middle, below, beside⟩
          have marked : Charted start chart (if (heap.get n).type = .text
              then heap.modify n fun cell => { cell with flags := cell.flags ||| xmlFlagNoescape }
              else heap) := by
            split
            · exact charted.write here _ fun _ => ⟨rfl, rfl, rfl, rfl, rfl, rfl⟩
            · exact charted
          have lower := inductionHypothesis marked ?_ below
          · refine inductionHypothesis lower ?_ beside
            exact fun m link => (lower.forest.behind here link).1
          · exact fun m link => marked.child_tree here link

end Trees

end TurboXSL
