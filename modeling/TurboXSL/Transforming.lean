import Mathlib.Data.List.Find
import TurboXSL.Library.Knowledge
import TurboXSL.RealmWrites
import TurboXSL.TaskModes

namespace TurboXSL

open Library Output Program

/-!
# Threads that transform

What the threads of a transformation may do to the memory that they share: a
context has its result in the trees and its variables in a node of their own,
it shows what is visible, and its instructions come from the stylesheet.  Every
instruction keeps to this when others step in between, and so do the tasks
that it starts.
-/

variable {Num : Type}

/-! ## The meaning of operations -/

/-- What an operation answers and does to the memory. -/
def Operation.acts {Answer : Type} (operation : Operation Num Answer) (memory : Memory Num)
    (answer : Answer) (after : Memory Num) : Prop :=
  match operation with
  | .memory change => change memory = some (answer, after)
  | .context _ => after = memory
  | .start _ => after = memory

/-- What a thread of the pool does with a task that has been handed to it. -/
def Operation.starts [Double Num] {Answer : Type} (operation : Operation Num Answer)
    (program : Thread Num Unit) : Prop :=
  match operation with
  | .memory _ => False
  | .context _ => False
  | .start task => Exists fun fuel => program = perform fuel task.function task.context

/-! ## What has to hold -/

/-- The entry applies templates from among these nodes. -/
structure TemplateMapEntry.Within (entry : TemplateMapEntry) (inside : NodeId → Prop) : Prop where
  head : ∀ t ∈ entry.head, inside t.content
  root : ∀ t, entry.root = some t → inside t.content
  always : ∀ t, entry.always = some t → inside t.content
  directMatch : ∀ tree node t, entry.directMatch = some tree → (tree.get node).value = some t →
    inside t.content

/-- What a transformation finds when it begins: documents with links among
themselves, loaders of such documents, and templates from the stylesheet; an
`xsl:apply-templates` with an `xsl:sort` has a `select`. -/
structure SoundStart (pctx : Transformation Num) (start : Heap) : Prop where
  whole : pctx.env.documents.Whole ∧ pctx.env.strings.Whole
  documents : Documents start
  attributes : ∀ n a, n < start.size → (start.get n).attributes = some a → a < start.size
  next : ∀ n m, n < start.size → (start.get n).next = some m → m < start.size
  templates : ∀ mode entry, pctx.templates mode = some entry → entry.Within (Given start)
  named : ∀ name t, pctx.namedTempl name = some t → Given start t
  sorts : ∀ n fuel, Given start n → (start.get n).name = some xslApply →
    xmlGetAttr start (some xslASelect) fuel n = some none →
    ∀ c d, (start.get n).children = some c →
      Relation.ReflTransGen (fun one other => (start.get one).next = some other) c d →
      (start.get d).name ≠ some xslSort

/-- The memory fits the chart, and the nodes that were there have the
same values. -/
structure OnChart (start : Memory Num) (chart : Chart) (memory : Memory Num) : Prop where
  charted : Charted start.heap chart memory.heap
  extra : ∀ n < start.heap.size, memory.extra n = start.extra n

/-- A context that keeps to the chart. -/
structure Sited (start : Heap) (chart : Chart) (context : TemplateContext Num) : Prop where
  own : SoundStart context.context start
  instruction : ∀ n, context.instruction = some n → Given start n
  result : chart.realm context.result = some .tree
  documentNode : Visible start chart context.documentNode
  parameters : Loose chart context.parameters
  locals : chart.realm context.localVariables = some .frame

/-- The agreement of the threads of a transformation. -/
def keeping (start : Memory Num) :
    Agreement (Operation Num) Chart (Memory Num) where
  fits := OnChart start
  acts := Operation.acts
  may := fun operation chart =>
    match operation with
    | .memory _ => True
    | .context _ => True
    | .start task => Sited start.heap chart task.context

/-- A program that keeps to it. -/
abbrev Heeds {Value : Type} (start : Memory Num) (chart : Chart)
    (program : Thread Num Value) (post : Chart → Value → Prop) : Prop :=
  Knows (keeping start) program chart post

/-! ## Single operations -/

section Operations

variable {start : Memory Num} {chart : Chart} {Value Other : Type}
  {post : Chart → Value → Prop}

theorem heeds_access {change : Memory Num → Option (Value × Memory Num)}
    (acts : ∀ later memory answer after, chart ≤ later → OnChart start later memory →
      change memory = some (answer, after) →
      Exists fun last => later ≤ last ∧ OnChart start last after ∧ post last answer) :
    Heeds start chart (access change) post :=
  knows_perform (fun _ _ => trivial) acts

theorem heeds_stuck : Heeds start chart stuck post :=
  heeds_access fun _ _ _ _ _ _ impossible => by cases impossible

theorem heeds_changing {change : Heap → Option (Value × Heap)}
    (acts : ∀ later heap answer after, chart ≤ later → Charted start.heap later heap →
      change heap = some (answer, after) →
      Onward start.heap later after fun last => post last answer) :
    Heeds start chart (changing change) post := by
  refine heeds_access fun later memory answer after known fits acted => ?_
  rcases Option.map_eq_some_iff.mp acted with ⟨⟨value, heap⟩, changed, done⟩
  cases done
  rcases acts later _ _ _ known fits.charted changed with ⟨last, grows, charted, here⟩
  exact ⟨last, grows, ⟨charted, fits.extra⟩, here⟩

theorem heeds_reading {read : Heap → Option Value}
    (reads : ∀ later heap answer, chart ≤ later → Charted start.heap later heap →
      read heap = some answer → post later answer) :
    Heeds start chart (reading read) post := by
  refine heeds_access fun later memory answer after known fits acted => ?_
  rcases Option.map_eq_some_iff.mp acted with ⟨value, found, done⟩
  cases done
  exact ⟨later, le_refl later, fits, reads later _ _ known fits.charted found⟩

/-- What is read does not matter. -/
theorem heeds_reads {read : Heap → Option Value} {next : Value → Thread Num Other}
    {goal : Chart → Other → Prop}
    (rest : ∀ later value, chart ≤ later → Heeds start later (next value) goal) :
    Heeds start chart (reading read >>= next) goal :=
  (heeds_reading fun _ _ _ _ _ _ => trivial).bind fun later value known (_ : True) =>
    rest later value known

theorem heeds_nodeOf {node : NodeId} {next : XmlNode → Thread Num Other}
    {goal : Chart → Other → Prop}
    (rest : ∀ later heap, chart ≤ later → Charted start.heap later heap →
      Heeds start later (next (heap.get node)) goal) :
    Heeds start chart (nodeOf node >>= next) goal := by
  have read : Heeds start chart (nodeOf node) fun later cell => Exists fun heap =>
      Charted start.heap later heap ∧ cell = heap.get node := by
    refine heeds_reading fun later heap answer _ charted found => ?_
    cases found
    exact ⟨heap, charted, rfl⟩
  refine read.bind ?_
  rintro later cell known ⟨heap, charted, rfl⟩
  exact rest later heap known charted

theorem heeds_extraOf {node : NodeId} {next : RValue Num → Thread Num Other}
    {goal : Chart → Other → Prop}
    (rest : ∀ later value, chart ≤ later → Heeds start later (next value) goal) :
    Heeds start chart (extraOf node >>= next) goal := by
  have read : Heeds start chart (extraOf node) fun _ _ => True := by
    refine heeds_access fun later memory answer after _ fits acted => ?_
    cases acted
    exact ⟨later, le_refl later, fits, trivial⟩
  exact read.bind fun later value known _ => rest later value known

theorem heeds_newContext {context : TemplateContext Num}
    {next : TemplateContext Num → Thread Num Other} {goal : Chart → Other → Prop}
    (rest : ∀ later, chart ≤ later → Heeds start later (next context) goal) :
    Heeds start chart (newContext context >>= next) goal := by
  refine knows_perform (fun _ _ => trivial) fun later memory answer after known fits acted => ?_
  cases acted
  exact ⟨later, le_refl later, fits, rest later known⟩

theorem heeds_newNode (realm : Realm) (name : Option Bytes) (type : NodeType)
    (plain : realm = .tree → type ≠ .attribute) :
    Heeds start chart (newNode name type) fun later n => later.realm n = some realm := by
  refine heeds_changing fun later heap answer after _ charted made => ?_
  cases made
  exact charted.newNode realm name type plain

theorem heeds_appendChild {node : NodeId} (tree : chart.realm node = some .tree)
    {type : NodeType} (plain : type ≠ .attribute) :
    Heeds start chart (appendChild node type) fun later n => later.realm n = some .tree := by
  refine heeds_changing fun later heap answer after known charted made => ?_
  rcases Option.map_eq_some_iff.mp made with ⟨⟨grown, new⟩, appended, done⟩
  cases done
  rcases charted.append (known _ _ tree) plain appended with ⟨rfl, size, charted_, -, -⟩
  refine ⟨_, charted.le_grow _ _ _, charted_, ?_⟩
  exact later.grown .tree (Nat.le_refl _) (Nat.lt_succ_self _)

/-- A node that stays where it is gets another content, name or flags. -/
theorem heeds_write {node : NodeId} {realm : Realm} (here : chart.realm node = some realm)
    (change : XmlNode → XmlNode)
    (same : ∀ cell, (change cell).type = cell.type ∧ (change cell).children = cell.children ∧
      (change cell).next = cell.next ∧ (change cell).prev = cell.prev ∧
      (change cell).parent = cell.parent ∧ (change cell).attributes = cell.attributes) :
    Heeds start chart (changeNode node change) fun _ _ => True := by
  refine heeds_changing fun later heap answer after known charted made => ?_
  cases made
  exact (charted.write (known _ _ here) change same).stay trivial

/-- A loose node is put in front of loose nodes. -/
theorem heeds_link {node : NodeId} (here : chart.realm node = some .loose) {next : Ptr}
    (loose : Loose chart next) :
    Heeds start chart (changeNode node fun cell => { cell with next := next })
      fun _ _ => True := by
  refine heeds_changing fun later heap answer after known charted made => ?_
  cases made
  have linked := charted.link (known _ _ here) (fun cell => { cell with next := next })
    (fun _ => rfl) (loose.mono known)
  exact linked.stay trivial

/-- A node gets attributes. -/
theorem heeds_attach {node : NodeId} {realm : Realm} (here : chart.realm node = some realm)
    {first : Ptr} (loose : Loose chart first) :
    Heeds start chart (changeNode node fun cell => { cell with attributes := first })
      fun _ _ => True := by
  refine heeds_changing fun later heap answer after known charted made => ?_
  cases made
  exact (charted.attach (known _ _ here) (loose.mono known)).stay trivial

theorem OnChart.setExtra {memory : Memory Num} (fits : OnChart start chart memory) {node : NodeId}
    {realm : Realm} (here : chart.realm node = some realm) (value : RValue Num) :
    OnChart start chart (memory.setExtra node value) where
  charted := fits.charted
  extra := by
    intro n old
    have other : n ≠ node := Nat.ne_of_lt (Nat.lt_of_lt_of_le old (fits.charted.made here).1)
    exact (if_neg other).trans (fits.extra n old)

theorem heeds_setExtra {node : NodeId} {realm : Realm} (here : chart.realm node = some realm)
    (value : RValue Num) : Heeds start chart (setExtra node value) fun _ _ => True := by
  refine heeds_access fun later memory answer after known fits made => ?_
  cases made
  exact ⟨later, le_refl later, fits.setExtra (known _ _ here) value, trivial⟩

/-! ## Loops -/

/-- What holds of the accumulator, whether the loop goes on or not. -/
def Rounds {Acc : Type} (inv : Chart → Acc → Prop) (chart : Chart) : Except Acc Acc → Prop
  | .error acc => inv chart acc
  | .ok acc => inv chart acc

/-- A loop over a list of nodes that are all of one kind. -/
theorem heeds_loopNodes {Acc : Type} {body : Acc → NodeId → Thread Num (Except Acc Acc)}
    (listed : Chart → NodeId → Prop) (inv : Chart → Acc → Prop)
    (lasting : ∀ {before after n}, before ≤ after → listed before n → listed after n)
    (ahead : ∀ {later heap n m}, Charted start.heap later heap → listed later n →
      (heap.get n).next = some m → listed later m)
    (kept : ∀ {before after acc}, before ≤ after → inv before acc → inv after acc)
    (round : ∀ later acc node, chart ≤ later → listed later node → inv later acc →
      Heeds start later (body acc node) (Rounds inv))
    (fuel : Nat) {nodes : Ptr} {acc : Acc} (first : ∀ n, nodes = some n → listed chart n)
    (here : inv chart acc) : Heeds start chart (loopNodes body fuel nodes acc) inv := by
  induction fuel generalizing nodes acc chart with
  | zero =>
      cases nodes with
      | none => exact knows_pure here
      | some node => exact heeds_stuck
  | succ fuel inductionHypothesis =>
      cases nodes with
      | none => exact knows_pure here
      | some node =>
          rw [loopNodes]
          refine (round chart acc node (le_refl chart) (first node rfl) here).bind ?_
          intro later left known here
          cases left with
          | error acc => exact knows_pure here
          | ok acc =>
              refine heeds_nodeOf fun further heap grows charted => ?_
              refine inductionHypothesis ?_ ?_ ?_
              · exact fun last acc node beyond =>
                  round last acc node (le_trans (le_trans known grows) beyond)
              · intro m link
                exact ahead charted (lasting (le_trans known grows) (first node rfl)) link
              · exact kept grows here

theorem heeds_eachNode {body : NodeId → Thread Num Unit} (listed : Chart → NodeId → Prop)
    (lasting : ∀ {before after n}, before ≤ after → listed before n → listed after n)
    (ahead : ∀ {later heap n m}, Charted start.heap later heap → listed later n →
      (heap.get n).next = some m → listed later m)
    (round : ∀ later node, chart ≤ later → listed later node →
      Heeds start later (body node) fun _ _ => True)
    (fuel : Nat) {nodes : Ptr} (first : ∀ n, nodes = some n → listed chart n) :
    Heeds start chart (eachNode fuel nodes body) fun _ _ => True := by
  refine heeds_loopNodes listed (fun _ _ => True) lasting ahead (fun _ _ => trivial) ?_ fuel first trivial
  intro later acc node known here _
  exact (round later node known here).bind fun _ _ _ _ => knows_pure trivial

/-- A loop over loose nodes. -/
theorem heeds_eachLoose {body : NodeId → Thread Num Unit}
    (round : ∀ later node, chart ≤ later → later.realm node = some .loose →
      Heeds start later (body node) fun _ _ => True)
    (fuel : Nat) {nodes : Ptr} (loose : Loose chart nodes) :
    Heeds start chart (eachNode fuel nodes body) fun _ _ => True :=
  heeds_eachNode (fun chart n => chart.realm n = some .loose) (fun known here => known _ _ here)
    (fun charted here link => charted.onward _ _ here link) round fuel loose

/-- A loop over nodes that are visible. -/
theorem heeds_eachVisible (documents : Documents start.heap) {body : NodeId → Thread Num Unit}
    (round : ∀ later node, chart ≤ later → Visible start.heap later node →
      Heeds start later (body node) fun _ _ => True)
    (fuel : Nat) {nodes : Ptr} (first : ∀ n, nodes = some n → Visible start.heap chart n) :
    Heeds start chart (eachNode fuel nodes body) fun _ _ => True :=
  heeds_eachNode (Visible start.heap) (fun known here => here.mono known)
    (fun charted here link => charted.next_visible documents here link) round fuel first

/-- A loop over the nodes of a document. -/
theorem heeds_eachGiven (documents : Documents start.heap) {body : NodeId → Thread Num Unit}
    (round : ∀ later node, chart ≤ later → Given start.heap node →
      Heeds start later (body node) fun _ _ => True)
    (fuel : Nat) {nodes : Ptr} (first : ∀ n, nodes = some n → Given start.heap n) :
    Heeds start chart (eachNode fuel nodes body) fun _ _ => True :=
  heeds_eachNode (fun _ => Given start.heap) (fun _ here => here)
    (fun charted here link => charted.next_given documents here link) round fuel first

/-- The copies of variables are loose, and the node that holds them is new. -/
theorem heeds_copyVariables (fuel : Nat) {locals : NodeId}
    (frame : chart.realm locals = some .frame) :
    Heeds start chart (copyVariables fuel locals) fun later n =>
      later.realm n = some .frame := by
  refine (heeds_newNode .frame none .empty fun impossible => by cases impossible).bind ?_
  intro second result known new
  refine heeds_nodeOf fun third heap grows charted => ?_
  have loose := charted.attributes_loose (.inr (grows _ _ (known _ _ frame)))
  refine Knows.bind ?_ fun last _ further (_ : True) => knows_pure (further _ _ (grows _ _ new))
  refine heeds_eachLoose (fun later variable_ beyond old => ?_) fuel loose
  have new := beyond _ _ (grows _ _ new)
  refine heeds_reads fun c₁ original k₁ => ?_
  refine (heeds_newNode .loose original.name .attribute fun impossible => by cases impossible).bind ?_
  intro c₂ copy k₂ fresh
  refine heeds_extraOf fun c₃ value k₃ => ?_
  refine (heeds_setExtra (k₃ _ _ fresh) value).bind fun c₄ _ k₄ _ => ?_
  refine heeds_nodeOf fun c₅ heap k₅ charted => ?_
  have sited : c₂ ≤ c₅ := le_trans k₃ (le_trans k₄ k₅)
  have owner := le_trans k₁ (le_trans k₂ sited) _ _ new
  refine (heeds_link (sited _ _ fresh) (charted.attributes_loose (.inr owner))).bind ?_
  intro c₆ _ k₆ _
  exact heeds_attach (k₆ _ _ owner) (.some_ (k₆ _ _ (sited _ _ fresh)))

end Operations

/-! ## Expressions -/

section Expressions

variable {pctx : Transformation Num} {start : Memory Num} (sound : SoundStart pctx start.heap)
  {chart : Chart} {Value Other : Type} {post : Chart → Value → Prop}

include sound

theorem SoundStart.scope {locals : NodeId} {memory : Memory Num} {env : Env Num}
    (made : pctx.scope locals memory = some env) : Scope env locals := by
  rcases Option.bind_eq_some_iff.mp made with ⟨attributes, _, done⟩
  cases done
  exact ⟨rfl, sound.whole.1, sound.whole.2⟩

theorem heeds_evaluating {locals : NodeId} {evaluate : Env Num → Heap → Option (Value × Heap)}
    (steps : ∀ later env heap value after, chart ≤ later → Scope env locals →
      Charted start.heap later heap → evaluate env heap = some (value, after) →
      Onward start.heap later after fun last => post last value) :
    Heeds start chart (evaluating pctx locals evaluate) post := by
  refine heeds_access fun later memory answer after known fits acted => ?_
  rcases Option.bind_eq_some_iff.mp acted with ⟨env, made, acted⟩
  rcases Option.bind_eq_some_iff.mp acted with ⟨⟨value, heap⟩, evaluated, done⟩
  cases done
  rcases steps later env _ _ _ known (sound.scope made) fits.charted evaluated with
    ⟨last, grows, charted, here⟩
  exact ⟨last, grows, ⟨charted, fits.extra⟩, here⟩

omit sound in
theorem heeds_findExpr {expr : Option Bytes} {next : Expr → Thread Num Other}
    {goal : Chart → Other → Prop}
    (rest : ∀ later etree, chart ≤ later → Heeds start later (next etree) goal) :
    Heeds start chart (findExpr pctx expr >>= next) goal := heeds_reads rest

variable [Double Num] {locals current : NodeId} (frame : chart.realm locals = some .frame)

include frame

theorem heeds_evalBoolean (etree : Expr) :
    Heeds start chart (evalBoolean pctx locals current etree) fun _ _ => True := by
  refine heeds_evaluating sound fun later env heap value after known scope charted done => ?_
  split at done
  next =>
    cases done
    exact charted.stay trivial
  next =>
    rcases Option.bind_eq_some_iff.mp done with ⟨⟨value, last⟩, run, done⟩
    cases done
    have evaluated := (scope.executes (charted.made (known _ _ frame)).2 run).1
    exact (scope.loose charted (known _ _ frame) evaluated).weaken fun _ _ _ => trivial

theorem heeds_evalString (etree : Expr) :
    Heeds start chart (evalString pctx locals current etree) fun _ _ => True := by
  refine heeds_evaluating sound fun later env heap value after known scope charted done => ?_
  have evaluated := scope.evalString (charted.made (known _ _ frame)).2 done
  exact (scope.loose charted (known _ _ frame) evaluated).weaken fun _ _ _ => trivial

theorem heeds_evalSelection (etree : Expr) :
    Heeds start chart (evalSelection pctx locals current etree) Loose := by
  refine heeds_evaluating sound fun later env heap value after known scope charted done => ?_
  have evaluated := scope.evalSelection (charted.made (known _ _ frame)).2 done
  exact (scope.loose charted (known _ _ frame) evaluated.1).weaken
    fun _ _ loose => loose value evaluated.2

theorem heeds_evalNode {node : NodeId} (loose : chart.realm node = some .loose)
    (expr : Option Bytes) :
    Heeds start chart (evalNode pctx locals current expr node) fun _ _ => True := by
  refine (heeds_setExtra loose .null).bind fun second _ known _ => ?_
  refine heeds_findExpr fun third etree grows => ?_
  refine knows_ite (fun _ => knows_pure trivial) fun _ => ?_
  have evaluated : Heeds start third (evaluating pctx locals fun env heap =>
      xpathExecuteScalar env pctx.depth etree current
        (heap.modify locals fun cell => { cell with parent := some current })) fun _ _ => True := by
    refine heeds_evaluating sound fun later env heap value after further scope charted run => ?_
    have frame := further _ _ (grows _ _ (known _ _ frame))
    have evaluated := (scope.executes (charted.made frame).2 run).1
    exact (scope.loose charted frame evaluated).weaken fun _ _ _ => trivial
  refine evaluated.bind fun last value further _ => ?_
  exact heeds_setExtra (further _ _ (grows _ _ (known _ _ loose))) value

theorem heeds_processString (string : Option Bytes) :
    Heeds start chart (processString pctx locals current string) fun _ _ => True := by
  refine heeds_evaluating sound fun later env heap value after known scope charted done => ?_
  rcases Option.bind_eq_some_iff.mp done with ⟨⟨res, texts, last⟩, processed, done⟩
  cases done
  have evaluated := scope.processString (charted.made (known _ _ frame)).2 processed
  exact (scope.loose charted (known _ _ frame) evaluated).weaken fun _ _ _ => trivial

theorem heeds_sortedSelection {selection : Ptr} (loose : Loose chart selection) (child : NodeId) :
    Heeds start chart (sortedSelection pctx locals selection child) Loose := by
  refine heeds_reads fun c₁ select k₁ => heeds_findExpr fun c₂ compiled k₂ => ?_
  refine heeds_nodeOf fun c₃ heap k₃ _ => ?_
  have past := le_trans k₁ (le_trans k₂ k₃)
  refine heeds_evaluating sound fun later env heap value after known scope charted done => ?_
  rcases Option.map_eq_some_iff.mp done with ⟨⟨last, sorted⟩, found, done⟩
  cases done
  have known := le_trans past known
  exact scope.sortSelection charted (known _ _ frame) (loose.mono known) found

end Expressions

/-! ## Calls -/

theorem Sited.mono {start : Heap} {chart later : Chart} {context : TemplateContext Num}
    (sited : Sited start chart context) (known : chart ≤ later) :
    Sited start later context where
  own := sited.own
  instruction := sited.instruction
  result := known _ _ sited.result
  documentNode := sited.documentNode.mono known
  parameters := sited.parameters.mono known
  locals := known _ _ sited.locals

/-- The children of a node of the documents. -/
theorem SoundStart.children {pctx : Transformation Num} {start heap : Heap} {chart : Chart}
    (sound : SoundStart pctx start) (charted : Charted start chart heap) {n : NodeId}
    (given : Given start n) : ∀ c, (heap.get n).children = some c → Given start c := by
  intro c link
  rw [charted.same n given.1] at link
  exact sound.documents.children n c link

/-- The attributes of what was there are those that were there. -/
theorem SoundStart.siblings_back {pctx : Transformation Num} {start heap : Heap} {chart : Chart}
    (sound : SoundStart pctx start) (charted : Charted start chart heap) {p : Ptr} {nodes : List NodeId}
    (old : ∀ n, p = some n → n < start.size) (listed : siblings heap p = some nodes) :
    siblings start p = some nodes ∧ ∀ n ∈ nodes, n < start.size := by
  have chain := (follow_eq_some_iff.mp listed).1
  have olds : Siblings start p nodes ∧ ∀ n ∈ nodes, n < start.size := by
    clear listed
    induction chain with
    | nil => exact ⟨.nil, fun n impossible => absurd impossible List.not_mem_nil⟩
    | cons node rest tail inductionHypothesis =>
        have here := old node rfl
        rw [charted.same node here] at inductionHypothesis
        rcases inductionHypothesis (sound.next node · here) with ⟨behind, members⟩
        refine ⟨.cons node rest behind, fun n member => ?_⟩
        rcases List.mem_cons.mp member with rfl | later
        · exact here
        · exact members n later
  exact ⟨siblings_of_chain olds.1 olds.2, olds.2⟩

/-- An attribute that is missing later was missing at the start. -/
theorem SoundStart.missing_back {pctx : Transformation Num} {start heap : Heap} {chart : Chart}
    (sound : SoundStart pctx start) (charted : Charted start chart heap) {name : Option Bytes}
    {fuel : Nat} {n : NodeId} (given : Given start n)
    (missing : xmlGetAttr heap name fuel n = some none) : xmlGetAttr start name fuel n = some none := by
  induction fuel generalizing n with
  | zero => cases missing
  | succ fuel inductionHypothesis =>
      unfold xmlGetAttr at missing ⊢
      rw [charted.same n given.1] at missing
      split at missing
      next type =>
        rw [if_pos type]
        cases below : (start.get n).children with
        | none =>
            rw [below] at missing
            cases missing
        | some child =>
            rw [below] at missing
            exact inductionHypothesis (sound.documents.children n child below) missing
      next other =>
        rw [if_neg other]
        rcases Option.bind_eq_some_iff.mp missing with ⟨attributes, listed, missing⟩
        rcases sound.siblings_back charted (fun a => sound.attributes n a given.1) listed with
          ⟨back, olds⟩
        rw [back]
        have same : ∀ attr ∈ attributes, heap.get attr = start.get attr := fun attr member =>
          charted.same attr (olds attr member)
        have finds : attributes.find? (fun attr => decide ((heap.get attr).name = name)) =
            attributes.find? fun attr => decide ((start.get attr).name = name) := by
          refine List.find?_congr fun attr member => ?_
          rw [same attr member]
        rw [finds] at missing
        cases found : attributes.find? fun attr => decide ((start.get attr).name = name) with
        | none =>
            change some ((attributes.find? _).bind _) = _
            rw [found]
            rfl
        | some attr =>
            rw [found] at missing
            change some ((attributes.find? _).bind _) = _
            rw [found]
            rw [Option.bind_some, same attr (List.mem_of_find?_eq_some found)] at missing
            exact missing

/-- The nodes from a node on have no sort among them. -/
def Unsorted (start : Heap) (first : NodeId) : Prop :=
  ∀ d, Relation.ReflTransGen (fun one other => (start.get one).next = some other) first d →
    (start.get d).name ≠ some xslSort

theorem listedTemplate_mem [Double Num] {env : Env Num} {depth : Nat} {heap : Heap}
    {node : NodeId} {templates : List Template} {result : Option Template} {weight : Nat}
    {t : Template}
    (found : listedTemplate env depth heap node result weight templates = some (some t)) :
    result = some t ∨ t ∈ templates := by
  induction templates generalizing result weight with
  | nil =>
      cases found
      exact .inl rfl
  | cons first rest inductionHypothesis =>
      rcases Option.bind_eq_some_iff.mp found with ⟨passes, _, found⟩
      split at found
      · rcases inductionHypothesis found with same | member
        · cases same
          exact .inr List.mem_cons_self
        · exact .inr (List.mem_cons_of_mem first member)
      · exact (inductionHypothesis found).imp_right (List.mem_cons_of_mem first)

/-- A template that is selected is one of the entry. -/
theorem findSelectTemplate_within [Double Num] {env : Env Num} {depth : Nat} {heap : Heap}
    {node : NodeId} {entry : TemplateMapEntry} {inside : NodeId → Prop}
    (within : entry.Within inside) {t : Template}
    (found : findSelectTemplate env depth heap node entry = some (some t)) : inside t.content := by
  unfold findSelectTemplate at found
  cases isTree : entry.directMatch with
  | none =>
      rw [isTree] at found
      rcases listedTemplate_mem found with impossible | member
      · cases impossible
      · exact within.head t member
  | some tree =>
      rw [isTree] at found
      rcases Option.bind_eq_some_iff.mp found with ⟨direct, walked, listed⟩
      rcases listedTemplate_mem listed with rfl | member
      · rcases Option.bind_eq_some_iff.mp walked with ⟨line, _, done⟩
        exact within.directMatch tree _ t isTree (Option.some.inj done)
      · exact within.head t member

section Calls

variable {pctx : Transformation Num} {start : Memory Num} (sound : SoundStart pctx start.heap)
  {call : Caller Num}
  (calls : ∀ chart function context, Sited start.heap chart context →
    Heeds start chart (call function context) fun _ _ => True)
  (fuel : Nat) {chart : Chart}

include calls

theorem heeds_templateTaskRun (instruction : NodeId) {context : TemplateContext Num}
    (sited : Sited start.heap chart context) (function : TaskFunction) :
    Heeds start chart (templateTaskRun call instruction context function) fun _ _ => True := by
  refine knows_ite (fun _ => calls chart function context sited) fun _ => ?_
  refine heeds_reads fun second fork known => heeds_nodeOf fun third heap grows _ => ?_
  have later := sited.mono (le_trans known grows)
  have switched : Sited start.heap third { context with
      taskMode := (context.taskMode.forking fork ((heap.get instruction).name.elim false
        context.context.parallelInstructions)).1 } :=
    ⟨later.own, later.instruction, later.result, later.documentNode, later.parameters, later.locals⟩
  refine knows_ite (fun _ => ?_) fun _ => calls third function _ switched
  refine knows_perform (fun last further => switched.mono further) ?_
  intro last memory answer after further fits acted
  cases acted
  exact ⟨last, le_refl last, fits, knows_pure trivial⟩

include sound in
/-- The tree that is the value of a variable is built by instructions. -/
theorem heeds_treeValue {locals doc node : NodeId} {content : Ptr}
    (frame : chart.realm locals = some .frame) (visible : Visible start.heap chart doc)
    (given : ∀ n, content = some n → Given start.heap n) (loose : chart.realm node = some .loose) :
    Heeds start chart (treeValue call pctx locals doc content node) fun _ _ => True := by
  refine (heeds_newNode .tree none .empty fun _ => by decide).bind fun c₁ nodeset k₁ new => ?_
  refine (heeds_setExtra (k₁ _ _ loose) _).bind fun c₂ _ k₂ _ => ?_
  refine heeds_newContext fun c₃ k₃ => calls c₃ _ _ ?_
  have known := le_trans k₁ (le_trans k₂ k₃)
  exact ⟨sound, given, le_trans k₂ k₃ _ _ new, visible.mono known, .none_ _, known _ _ frame⟩

include sound in
/-- What instructions build is marked and written out. -/
theorem heeds_xmlEvalString {locals source : NodeId} {foreval : Ptr}
    (frame : chart.realm locals = some .frame) (visible : Visible start.heap chart source)
    (given : ∀ n, foreval = some n → Given start.heap n) :
    Heeds start chart (xmlEvalString call fuel pctx locals source foreval) fun _ _ => True := by
  refine (heeds_newNode .tree none .empty fun _ => by decide).bind fun c₁ tmp k₁ new => ?_
  refine heeds_newContext fun c₂ k₂ => ?_
  have known := le_trans k₁ k₂
  have sited : Sited start.heap c₂ {
      context := pctx, instruction := foreval, result := tmp, documentNode := source,
      localVariables := locals, taskMode := .single } :=
    ⟨sound, given, k₂ _ _ new, visible.mono known, .none_ _, known _ _ frame⟩
  refine (calls c₂ _ _ sited).bind fun c₃ _ k₃ _ => ?_
  refine heeds_access fun later memory answer after k₄ fits acted => ?_
  rcases Option.bind_eq_some_iff.mp acted with ⟨heap, marked, acted⟩
  rcases Option.bind_eq_some_iff.mp acted with ⟨⟨res, rawout⟩, _, done⟩
  cases done
  have tree := k₄ _ _ (k₃ _ _ (k₂ _ _ new))
  have charted := fits.charted.rejectTextNodeEscape (by rintro n ⟨⟩; exact tree) marked
  exact ⟨later, le_refl later, ⟨charted, fits.extra⟩, trivial⟩

theorem heeds_visitNode (instruction node : NodeId) {context : TemplateContext Num}
    (sited : Sited start.heap chart context) (function : TaskFunction) :
    Heeds start chart (visitNode call instruction node context function) fun _ _ => True := by
  refine heeds_reads fun second parallel known => ?_
  exact knows_ite (fun _ => heeds_templateTaskRun calls instruction (sited.mono known) function)
    fun _ => calls second function context (sited.mono known)

include sound

variable [Double Num] {context : TemplateContext Num}

omit sound calls [Double Num] in
/-- A variable of this name, a new one in front of the others if need be. -/
theorem heeds_localVariable {vars : NodeId} (frame : chart.realm vars = some .frame)
    (vname : Option Bytes) :
    Heeds start chart (localVariable vars vname) fun later n =>
      later.realm n = some .loose := by
  have found : Heeds start chart (reading fun heap => do
      let attributes ← siblings heap (heap.get vars).attributes
      some (attributes.find? fun tmp => decide (xmlsEquals vname (heap.get tmp).name))) Loose := by
    refine heeds_reading fun later heap answer known charted read => ?_
    rcases Option.bind_eq_some_iff.mp read with ⟨attributes, listed, done⟩
    cases done
    have members := charted.loose_siblings (charted.attributes_loose (.inr (known _ _ frame))) listed
    exact fun n here => members n (List.mem_of_find?_eq_some here)
  refine found.bind fun c₁ tmp k₁ loose => ?_
  cases tmp with
  | none =>
      refine (heeds_newNode .loose vname .attribute fun impossible => by cases impossible).bind ?_
      intro c₂ tmp k₂ new
      refine heeds_nodeOf fun c₃ heap k₃ charted => ?_
      have frame := k₃ _ _ (k₂ _ _ (k₁ _ _ frame))
      refine (heeds_link (k₃ _ _ new) (charted.attributes_loose (.inr frame))).bind ?_
      intro c₄ _ k₄ _
      refine (heeds_attach (k₄ _ _ frame) (.some_ (k₄ _ _ (k₃ _ _ new)))).bind fun c₅ _ k₅ _ => ?_
      exact knows_pure (k₅ _ _ (k₄ _ _ (k₃ _ _ new)))
  | some tmp =>
      have here := loose tmp rfl
      have cleared : Heeds start c₁ (changeNode tmp fun cell => { cell with content := none })
          fun _ _ => True := heeds_write here _ fun _ => ⟨rfl, rfl, rfl, rfl, rfl, rfl⟩
      exact cleared.bind fun c₂ _ k₂ _ => knows_pure (k₂ _ _ here)

theorem heeds_doLocalVar {vars doc var : NodeId} (frame : chart.realm vars = some .frame)
    (visible : Visible start.heap chart doc) (given : Given start.heap var) :
    Heeds start chart (doLocalVar call pctx vars doc var) fun _ _ => True := by
  refine heeds_reads fun c₁ vname k₁ => heeds_reads fun c₂ vsel k₂ => ?_
  have k₂ := le_trans k₁ k₂
  refine (heeds_localVariable (k₂ _ _ frame) vname).bind fun c₃ tmp k₃ loose => ?_
  have known := le_trans k₂ k₃
  cases vsel with
  | none =>
      refine heeds_nodeOf fun c₄ heap k₄ charted => ?_
      have known := le_trans known k₄
      exact heeds_treeValue sound calls (known _ _ frame) (visible.mono known)
        (sound.children charted given) (k₄ _ _ loose)
  | some vsel => exact heeds_evalNode sound (known _ _ frame) loose _

omit [Double Num] calls in
theorem heeds_addLocalVar {vars : NodeId} (frame : chart.realm vars = some .frame)
    (name : Option Bytes) (params : Ptr) :
    Heeds start chart (addLocalVar vars name params) fun _ _ => True := by
  refine heeds_reads fun c₁ found k₁ => ?_
  cases found with
  | none => exact knows_pure trivial
  | some param =>
      refine (heeds_newNode .loose name .attribute fun impossible => by cases impossible).bind ?_
      intro c₂ tmp k₂ new
      refine heeds_nodeOf fun c₃ heap k₃ charted => ?_
      have frame := k₃ _ _ (k₂ _ _ (k₁ _ _ frame))
      refine (heeds_link (k₃ _ _ new) (charted.attributes_loose (.inr frame))).bind ?_
      intro c₄ _ k₄ _
      have new := k₄ _ _ (k₃ _ _ new)
      refine (heeds_attach (k₄ _ _ frame) (.some_ new)).bind fun c₅ _ k₅ _ => ?_
      refine heeds_access fun later memory answer after k₆ fits acted => ?_
      rcases Option.bind_eq_some_iff.mp acted with ⟨⟨value, heap⟩, copied, done⟩
      cases done
      have known := le_trans k₅ k₆
      have allocates : Allocates (some vars) memory.heap heap := (rvalCopy_outcome copied).allocates
      have brings : Brings memory.heap heap :=
        (brings_writing sound.whole.1 sound.whole.2).rvalCopy copied
      have charted := fits.charted.added (known _ _ (k₄ _ _ frame)) allocates brings.children
      have grows := fits.charted.le_grow heap.size .loose none
      have after : OnChart start _ { memory with heap := heap } := ⟨charted, fits.extra⟩
      exact ⟨_, grows, after.setExtra (grows _ _ (known _ _ new)) value, trivial⟩

omit calls in
/-- A template that is found is one of the stylesheet. -/
theorem heeds_findTemplate (node : NodeId) (mode : Option Bytes) :
    Heeds start chart (findTemplate pctx node mode) fun _ template =>
      ∀ n, template = some n → Given start.heap n := by
  refine heeds_access fun later memory answer after known fits acted => ?_
  dsimp only at acted
  split at acted
  next =>
    cases acted
    exact ⟨later, le_refl later, fits, by rintro n ⟨⟩⟩
  next entry isEntry =>
    have within := sound.templates mode entry isEntry
    split at acted
    next =>
      cases acted
      refine ⟨later, le_refl later, fits, fun n here => ?_⟩
      rcases Option.map_eq_some_iff.mp here with ⟨t, isRoot, rfl⟩
      exact within.root t isRoot
    next =>
      rcases Option.bind_eq_some_iff.mp acted with ⟨selected, search, acted⟩
      cases selected with
      | some t =>
          cases acted
          refine ⟨later, le_refl later, fits, ?_⟩
          rintro n ⟨⟩
          exact findSelectTemplate_within within search
      | none =>
          dsimp only at acted
          split at acted
          next =>
            cases acted
            exact ⟨later, le_refl later, fits, by rintro n ⟨⟩⟩
          next =>
            cases acted
            refine ⟨later, le_refl later, fits, fun n here => ?_⟩
            rcases Option.map_eq_some_iff.mp here with ⟨t, isAlways, rfl⟩
            exact within.always t isAlways

end Calls

/-! ## The instructions -/

section Instructions

variable {start : Memory Num} {call : Caller Num}
  (calls : ∀ chart function context, Sited start.heap chart context →
    Heeds start chart (call function context) fun _ _ => True)
  (fuel : Nat) {chart : Chart} [Double Num] {context : TemplateContext Num}

include calls

theorem heeds_withParam (sited : Sited start.heap chart context) {child : NodeId}
    (given : Given start.heap child) {parameters : Ptr} (loose : Loose chart parameters) :
    Heeds start chart (withParam call context child parameters) Loose := by
  refine heeds_reads fun c₁ name k₁ => ?_
  refine (heeds_newNode .loose name .attribute fun impossible => by cases impossible).bind ?_
  intro c₂ parameter k₂ new
  refine (heeds_link new (loose.mono (le_trans k₁ k₂))).bind fun c₃ _ k₃ _ => ?_
  refine heeds_reads fun c₄ select k₄ => ?_
  have known : chart ≤ c₄ := le_trans k₁ (le_trans k₂ (le_trans k₃ k₄))
  have here := k₄ _ _ (k₃ _ _ new)
  have value : Heeds start c₄ (parameterValue call context child parameter select)
      fun _ _ => True := by
    unfold parameterValue
    cases select with
    | none =>
        refine heeds_nodeOf fun c₅ heap k₅ charted => ?_
        have sited := sited.mono (le_trans known k₅)
        exact heeds_treeValue sited.own calls sited.locals sited.documentNode
          (sited.own.children charted given) (k₅ _ _ here)
    | some select => exact heeds_evalNode sited.own (known _ _ sited.locals) here _
  exact value.bind fun c₅ _ k₅ _ => knows_pure (.some_ (k₅ _ _ here))

variable (sited : Sited start.heap chart context) {instruction : NodeId}
  (given : Given start.heap instruction)

include sited given

theorem heeds_instructionCallTemplate :
    Heeds start chart (instructionCallTemplate call fuel context instruction)
      fun _ _ => True := by
  refine heeds_reads fun c₁ templateName k₁ => ?_
  have found : Heeds start c₁ (templateByname context.context templateName)
      fun _ template => ∀ n, template = some n → Given start.heap n := by
    unfold templateByname
    cases named : templateName.bind context.context.namedTempl with
    | none => exact knows_pure fun n impossible => by cases impossible
    | some template =>
        rcases Option.bind_eq_some_iff.mp named with ⟨name, _, here⟩
        refine heeds_nodeOf fun c₂ heap k₂ charted => knows_pure ?_
        exact sited.own.children charted (sited.own.named name template here)
  refine found.bind fun c₂ template k₂ inside => ?_
  cases template with
  | none => exact knows_ite (fun _ => heeds_stuck) fun _ => knows_pure trivial
  | some template =>
      refine heeds_nodeOf fun c₃ heap k₃ charted => ?_
      have past := le_trans k₁ (le_trans k₂ k₃)
      refine Knows.bind (heeds_loopNodes (fun _ => Given start.heap) Loose (fun _ here => here)
        (fun charted here link => charted.next_given sited.own.documents here link)
        (fun known loose => loose.mono known) (fun later acc i known here loose => ?_) fuel
        (sited.own.children charted given) (.none_ _)) ?_
      · refine heeds_nodeOf fun c₄ heap k₄ _ => knows_ite (fun _ => ?_) fun _ => ?_
        · exact knows_pure (loose.mono k₄)
        · refine Knows.bind (heeds_withParam calls (sited.mono ?_) here (loose.mono k₄)) ?_
          · exact le_trans past (le_trans known k₄)
          · exact fun c₅ parameters k₅ loose => knows_pure loose
      · intro c₄ parameters k₄ loose
        refine (heeds_newNode .frame none .empty fun impossible => by cases impossible).bind ?_
        intro c₅ localVariables k₅ frame
        have known := le_trans past (le_trans k₄ k₅)
        refine (heeds_appendChild (known _ _ sited.result) (by decide)).bind fun c₆ result k₆ new => ?_
        refine heeds_newContext fun c₇ k₇ => heeds_templateTaskRun calls instruction ?_ _
        have beyond := le_trans k₆ k₇
        exact ⟨sited.own, inside, k₇ _ _ new,
          sited.documentNode.mono (le_trans known beyond), loose.mono (le_trans k₅ beyond),
          beyond _ _ frame⟩

omit given [Double Num] in
/-- One round of `xsl:apply-templates`. -/
theorem heeds_applyToNode {parameters : Ptr} (loose : Loose chart parameters)
    {localVariables node : NodeId} (frame : chart.realm localVariables = some .frame)
    (mode : Option Bytes) (visible : Visible start.heap chart node) :
    Heeds start chart
      (applyToNode call context instruction parameters localVariables mode node)
      fun _ _ => True := by
  refine (heeds_appendChild sited.result (by decide)).bind fun c₁ result k₁ new => ?_
  refine heeds_newContext fun c₂ k₂ => heeds_visitNode calls instruction node ?_ _
  have known := le_trans k₁ k₂
  refine ⟨sited.own, (by rintro n ⟨⟩), k₂ _ _ new, visible.mono known, ?_,
    known _ _ frame⟩
  cases parameters with
  | none => exact sited.parameters.mono known
  | some parameters => exact loose.mono known

/-- What the loop over the children of `xsl:apply-templates` has found. -/
structure Collected (start : Heap) (select : Option Bytes) (chart : Chart) (found : Ptr × Ptr) :
    Prop where
  selected : select ≠ none → Loose chart found.1
  visible : ∀ n, found.1 = some n → Visible start chart n
  parameters : Loose chart found.2

omit calls sited given [Double Num] in
theorem Collected.mono {start : Heap} {select : Option Bytes} {chart later : Chart}
    {found : Ptr × Ptr} (gathered : Collected start select chart found) (known : chart ≤ later) :
    Collected start select later found :=
  ⟨fun has => (gathered.selected has).mono known, fun n here => (gathered.visible n here).mono known,
    gathered.parameters.mono known⟩

omit given in
theorem heeds_sortsAndParameters {select : Option Bytes} {selection children : Ptr}
    (inside : ∀ c, children = some c → Given start.heap c)
    (unsorted : select = none → ∀ c, children = some c → Unsorted start.heap c)
    (gathered : Collected start.heap select chart (selection, none)) :
    Heeds start chart (sortsAndParameters call fuel context selection children)
      (Collected start.heap select) := by
  refine heeds_loopNodes (fun _ c => Given start.heap c ∧ (select = none → Unsorted start.heap c))
    (Collected start.heap select) (fun _ here => here) ?_ (fun known here => here.mono known) ?_ fuel
    (fun c here => ⟨inside c here, fun no => unsorted no c here⟩) gathered
  · rintro later heap n m charted ⟨here, none_⟩ link
    refine ⟨charted.next_given sited.own.documents here link, fun no d behind => none_ no d ?_⟩
    rw [charted.same n here.1] at link
    exact behind.head link
  · rintro c₁ ⟨selection, parameters⟩ child k₁ ⟨here, none_⟩ gathered
    refine heeds_nodeOf fun c₂ heap k₂ charted => ?_
    have known := le_trans k₁ k₂
    have gathered := gathered.mono k₂
    refine knows_ite (fun _ => knows_pure gathered) fun _ => ?_
    refine knows_ite (fun _ => ?_) fun _ => knows_ite (fun _ => knows_pure gathered) fun isSort => ?_
    · refine (heeds_withParam calls (sited.mono known) here gathered.parameters).bind ?_
      intro c₃ parameters k₃ loose
      exact knows_pure ⟨(gathered.mono k₃).selected, (gathered.mono k₃).visible, loose⟩
    · have selects : select ≠ none := by
        intro no
        refine none_ no child .refl ?_
        rw [← charted.same child here.1]
        exact not_not.mp isSort
      refine (heeds_sortedSelection sited.own (known _ _ sited.locals) (gathered.selected selects)
        child).bind fun c₃ selection k₃ loose => ?_
      exact knows_pure ⟨fun _ => loose, fun n here => .inr (.inr (loose n here)),
        gathered.parameters.mono k₃⟩

theorem heeds_instructionApplyTemplates
    (name : (start.heap.get instruction).name = some xslApply) :
    Heeds start chart (instructionApplyTemplates call fuel context instruction)
      fun _ _ => True := by
  have read : Heeds start chart (attributeOf instruction xslASelect) fun _ select =>
      select = none → ∀ c, (start.heap.get instruction).children = some c →
        Unsorted start.heap c := by
    refine heeds_reading fun later heap answer _ charted found => ?_
    rintro rfl c below d behind
    exact sited.own.sorts instruction _ given name (sited.own.missing_back charted given found) c d below
      behind
  refine read.bind fun c₁ select k₁ unsorted => ?_
  have selected : Heeds start c₁ (appliedSelection context select) fun later selection =>
      Collected start.heap select later (selection, none) := by
    unfold appliedSelection
    cases select with
    | none =>
        refine heeds_nodeOf fun c₂ heap k₂ charted => knows_pure ?_
        refine ⟨fun impossible => absurd rfl impossible, ?_, .none_ _⟩
        exact fun n link => charted.children _ n link
    | some select =>
        refine heeds_findExpr fun c₂ etree k₂ => ?_
        have frame := k₂ _ _ (k₁ _ _ sited.locals)
        refine (heeds_evalSelection sited.own frame etree).weaken fun c₃ selection k₃ loose => ?_
        exact ⟨fun _ => loose, fun n here => .inr (.inr (loose n here)), .none_ _⟩
  refine selected.bind fun c₂ selection k₂ gathered => heeds_nodeOf fun c₃ heap k₃ charted => ?_
  have k₃ := le_trans k₁ (le_trans k₂ k₃)
  refine (heeds_sortsAndParameters calls fuel (sited.mono k₃)
    (sited.own.children charted given) ?_ (gathered.mono ‹c₂ ≤ c₃›)).bind ?_
  · intro no c link
    rw [charted.same instruction given.1] at link
    exact unsorted no c link
  · rintro c₄ ⟨selection, parameters⟩ k₄ gathered
    refine (heeds_newNode .frame none .empty fun impossible => by cases impossible).bind ?_
    intro c₅ localVariables k₅ frame
    refine heeds_reads fun c₆ mode k₆ => ?_
    have gathered := gathered.mono (le_trans k₅ k₆)
    refine heeds_eachVisible sited.own.documents (fun later node k₇ visible => ?_) fuel gathered.visible
    refine heeds_applyToNode calls (sited.mono ?_) (gathered.parameters.mono k₇)
      (k₇ _ _ (k₆ _ _ frame)) mode visible
    exact le_trans k₃ (le_trans k₄ (le_trans k₅ (le_trans k₆ k₇)))

theorem heeds_instructionAttribute :
    Heeds start chart (instructionAttribute call fuel context instruction)
      fun _ _ => True := by
  refine heeds_reads fun c₁ name k₁ => ?_
  have frame := k₁ _ _ sited.locals
  refine (heeds_processString sited.own frame name).bind fun c₂ attributeName k₂ _ => ?_
  refine heeds_nodeOf fun c₃ heap k₃ charted => ?_
  have known := le_trans k₁ (le_trans k₂ k₃)
  refine (heeds_xmlEvalString sited.own calls fuel (known _ _ sited.locals)
    (sited.documentNode.mono known) (sited.own.children charted given)).bind fun c₄ value k₄ _ => ?_
  refine heeds_changing fun later heap answer after k₅ charted done => ?_
  rcases Option.map_eq_some_iff.mp done with ⟨last, set, same⟩
  cases same
  exact charted.setAttribute (k₅ _ _ (k₄ _ _ (known _ _ sited.result))) set

omit calls given in
theorem heeds_elementNamespace {element : NodeId} (tree : chart.realm element = some .tree) :
    Heeds start chart (elementNamespace context instruction element) fun _ _ => True := by
  refine heeds_reads fun c₁ namespace_ k₁ => ?_
  cases namespace_ with
  | none => exact knows_pure trivial
  | some namespace_ =>
      refine (heeds_processString sited.own (k₁ _ _ sited.locals) _).bind fun c₂ value k₂ _ => ?_
      refine (heeds_newNode .loose (some xslAXmlns) .attribute
        fun impossible => by cases impossible).bind fun c₃ attribute_ k₃ new => ?_
      have filled : Heeds start c₃ (changeNode attribute_ fun cell => { cell with
          content := value }) fun _ _ => True :=
        heeds_write new _ fun _ => ⟨rfl, rfl, rfl, rfl, rfl, rfl⟩
      refine filled.bind fun c₄ _ k₄ _ => ?_
      have known := le_trans k₁ (le_trans k₂ (le_trans k₃ k₄))
      exact heeds_attach (known _ _ tree) (.some_ (k₄ _ _ new))

theorem heeds_instructionElement :
    Heeds start chart (instructionElement call fuel context instruction) fun _ _ => True := by
  refine heeds_reads fun c₁ name k₁ => ?_
  have processed : Heeds start c₁ (processString context.context context.localVariables
      context.documentNode name) fun _ _ => True := by
    exact heeds_processString sited.own (k₁ _ _ sited.locals) name
  refine processed.bind fun c₂ elementName k₂ _ => ?_
  have k₂ := le_trans k₁ k₂
  refine (heeds_appendChild (k₂ _ _ sited.result) (by decide)).bind fun c₃ element k₃ new => ?_
  have named : Heeds start c₃ (changeNode element fun cell => { cell with
      name := elementName }) fun _ _ => True :=
    heeds_write new _ fun _ => ⟨rfl, rfl, rfl, rfl, rfl, rfl⟩
  refine named.bind fun c₄ _ k₄ _ => ?_
  have k₄' := le_trans k₂ (le_trans k₃ k₄)
  refine (heeds_elementNamespace (sited.mono k₄') (k₄ _ _ new)).bind fun c₅ _ k₅ _ => ?_
  have k₅' := le_trans k₄' k₅
  refine (heeds_copyVariables fuel (k₅' _ _ sited.locals)).bind fun c₆ localVariables k₆ frame => ?_
  refine heeds_nodeOf fun c₇ heap k₇ charted => heeds_newContext fun c₈ k₈ => ?_
  have beyond := le_trans k₆ (le_trans k₇ k₈)
  refine heeds_templateTaskRun calls instruction ?_ _
  have known := le_trans k₅' beyond
  exact ⟨sited.own, sited.own.children charted given, beyond _ _ (k₅ _ _ (k₄ _ _ new)),
    sited.documentNode.mono known, sited.parameters.mono known,
    k₈ _ _ (k₇ _ _ frame)⟩

omit [Double Num] in
theorem heeds_contentInPlace :
    Heeds start chart (contentInPlace call context instruction) fun _ _ => True := by
  refine heeds_nodeOf fun c₁ heap k₁ charted => heeds_newContext fun c₂ k₂ => calls c₂ _ _ ?_
  have later := sited.mono (le_trans k₁ k₂)
  exact ⟨sited.own, sited.own.children charted given, later.result, later.documentNode,
    later.parameters, later.locals⟩

omit calls given in
theorem heeds_evalTest (branch : NodeId) :
    Heeds start chart (evalTest context branch) fun _ _ => True := by
  refine heeds_reads fun c₁ test k₁ => ?_
  refine heeds_findExpr fun c₂ etree k₂ => heeds_evalBoolean sited.own ?_ etree
  exact k₂ _ _ (k₁ _ _ sited.locals)

theorem heeds_instructionIf :
    Heeds start chart (instructionIf call context instruction) fun _ _ => True := by
  refine (heeds_evalTest sited instruction).bind fun c₁ holds k₁ _ => ?_
  exact knows_ite (fun _ => heeds_contentInPlace calls (sited.mono k₁) given)
    fun _ => knows_pure trivial

theorem heeds_instructionChoose :
    Heeds start chart (instructionChoose call fuel context instruction) fun _ _ => True := by
  refine heeds_nodeOf fun c₁ heap k₁ charted => ?_
  refine Knows.bind (heeds_loopNodes (fun _ => Given start.heap)
    (fun _ (found : Ptr × Bool) => ∀ n, found.1 = some n → Given start.heap n)
    (fun _ here => here)
    (fun charted here link => charted.next_given sited.own.documents here link)
    (fun _ here => here) ?_ fuel (sited.own.children charted given)
    (by rintro n ⟨⟩)) ?_
  · rintro c₂ ⟨otherwise, chosen⟩ i k₂ here inside
    refine heeds_nodeOf fun c₃ heap k₃ _ => ?_
    have known := le_trans k₁ (le_trans k₂ k₃)
    have inside : ∀ n, (if (heap.get i).name = some xslOtherwise then some i else otherwise) =
        some n → Given start.heap n := by
      intro n same
      split at same
      · cases same
        exact here
      · exact inside n same
    refine knows_ite (fun _ => ?_) fun _ => knows_pure inside
    refine (heeds_evalTest (sited.mono known) i).bind fun c₄ holds k₄ _ => ?_
    refine knows_ite (fun _ => ?_) fun _ => knows_pure inside
    have sited := sited.mono (le_trans known k₄)
    exact (heeds_contentInPlace calls sited here).bind fun _ _ _ _ => knows_pure inside
  · rintro c₂ ⟨otherwise, chosen⟩ k₂ inside
    cases otherwise with
    | none => exact knows_pure trivial
    | some otherwise =>
        refine knows_ite (fun _ => knows_pure trivial) fun _ => ?_
        exact heeds_contentInPlace calls (sited.mono (le_trans k₁ k₂)) (inside otherwise rfl)

theorem heeds_instructionParam :
    Heeds start chart (instructionParam call context instruction) fun _ _ => True := by
  refine heeds_reads fun c₁ name k₁ => heeds_reads fun c₂ select k₂ => ?_
  refine heeds_reads fun c₃ found k₃ => heeds_nodeOf fun c₄ heap k₄ _ => ?_
  have later := sited.mono (le_trans k₁ (le_trans k₂ (le_trans k₃ k₄)))
  refine knows_ite (fun _ => ?_) fun _ => heeds_addLocalVar sited.own later.locals _ _
  exact heeds_doLocalVar sited.own calls later.locals later.documentNode given

omit calls given in
/-- The sorts of `xsl:for-each`, whose selection is loose. -/
theorem heeds_sortsOfEach {selection children : Ptr} (loose : Loose chart selection)
    (inside : ∀ c, children = some c → Given start.heap c) :
    Heeds start chart (sortsOfEach fuel context selection children) fun later found =>
      Loose later found.1 ∧ ∀ n, found.2 = some n → Given start.heap n := by
  refine heeds_loopNodes (fun _ => Given start.heap)
    (fun later (found : Ptr × Ptr) => Loose later found.1 ∧
      ∀ n, found.2 = some n → Given start.heap n) (fun _ here => here) (fun charted here link => charted.next_given sited.own.documents here link)
    (fun known here => ⟨here.1.mono known, here.2⟩) ?_ fuel inside ⟨loose, by rintro n ⟨⟩⟩
  rintro c₁ ⟨selection, _⟩ child k₁ here ⟨loose, _⟩
  refine heeds_nodeOf fun c₂ heap k₂ _ => ?_
  have loose := loose.mono k₂
  refine knows_ite (fun _ => knows_pure ⟨loose, by rintro n ⟨⟩⟩) fun _ => ?_
  refine knows_ite (fun _ => knows_pure ⟨loose, by rintro n ⟨⟩; exact here⟩) fun _ => ?_
  refine (heeds_sortedSelection sited.own (k₂ _ _ (k₁ _ _ sited.locals)) loose child).bind ?_
  exact fun c₃ sorted k₃ loose => knows_pure ⟨loose, by rintro n ⟨⟩⟩

theorem heeds_instructionForEach :
    Heeds start chart (instructionForEach call fuel context instruction) fun _ _ => True := by
  refine heeds_reads fun c₁ select k₁ => heeds_reads fun c₂ etree k₂ => ?_
  have k₂ := le_trans k₁ k₂
  have selected : Heeds start c₂ (evalSelection context.context context.localVariables
      context.documentNode etree) Loose := by
    exact heeds_evalSelection sited.own (k₂ _ _ sited.locals) etree
  refine selected.bind fun c₃ selection k₃ loose => heeds_nodeOf fun c₄ heap k₄ charted => ?_
  have k₄' := le_trans k₂ (le_trans k₃ k₄)
  refine (heeds_sortsOfEach fuel (sited.mono k₄') (loose.mono k₄)
    (sited.own.children charted given)).bind ?_
  rintro c₅ ⟨selection, child⟩ k₅ ⟨loose, inside⟩
  refine heeds_eachLoose (fun c₆ node k₆ here => ?_) fuel loose
  have later := sited.mono (le_trans k₄' (le_trans k₅ k₆))
  refine (heeds_appendChild later.result (by decide)).bind fun c₇ result k₇ new => ?_
  refine (heeds_copyVariables fuel (k₇ _ _ later.locals)).bind fun c₈ localVariables k₈ frame => ?_
  refine heeds_newContext fun c₉ k₉ => heeds_visitNode calls instruction node ?_ _
  have beyond := le_trans k₇ (le_trans k₈ k₉)
  exact ⟨sited.own, inside, k₉ _ _ (k₈ _ _ new), .inr (.inr (beyond _ _ here)),
    later.parameters.mono beyond, k₉ _ _ frame⟩

omit calls given in
theorem heeds_instructionCopyOf :
    Heeds start chart (instructionCopyOf' fuel context instruction) fun _ _ => True := by
  refine heeds_reads fun c₁ select k₁ => ?_
  cases select with
  | none => exact knows_pure trivial
  | some select =>
      refine heeds_evaluating sited.own fun later env heap value after k₂ scope charted done => ?_
      rcases Option.bind_eq_some_iff.mp done with ⟨⟨texts, last⟩, copied, done⟩
      cases done
      have known := le_trans k₁ k₂
      exact scope.copyOf charted (known _ _ sited.locals) sited.own.documents
        (known _ _ sited.result) copied

omit calls given [Double Num] in
theorem heeds_appendText (content : Bytes) (flags : Nat) :
    Heeds start chart (appendText context content flags) fun _ _ => True :=
  (heeds_appendChild sited.result (by decide)).bind fun _ _ _ new =>
    heeds_write new _ fun _ => ⟨rfl, rfl, rfl, rfl, rfl, rfl⟩

omit calls given in
theorem heeds_instructionValueOf :
    Heeds start chart (instructionValueOf context instruction) fun _ _ => True := by
  refine heeds_reads fun c₁ select k₁ => heeds_reads fun c₂ etree k₂ => ?_
  have k₂ := le_trans k₁ k₂
  have text : Heeds start c₂ (evalString context.context context.localVariables
      context.documentNode etree) fun _ _ => True := by
    exact heeds_evalString sited.own (k₂ _ _ sited.locals) etree
  refine text.bind fun c₃ content k₃ _ => ?_
  cases content with
  | none => exact knows_pure trivial
  | some content =>
      refine heeds_nodeOf fun c₄ heap k₄ _ => heeds_appendText (sited.mono ?_) content _
      exact le_trans k₂ (le_trans k₃ k₄)

omit calls [Double Num] in
theorem heeds_instructionText :
    Heeds start chart (instructionText fuel context instruction) fun _ _ => True := by
  refine heeds_nodeOf fun c₁ heap k₁ charted => ?_
  refine heeds_eachGiven sited.own.documents (fun c₂ i k₂ _ => ?_) fuel (sited.own.children charted given)
  refine heeds_nodeOf fun c₃ heap k₃ _ => knows_ite (fun _ => ?_) fun _ => knows_pure trivial
  cases (heap.get i).content with
  | none => exact heeds_stuck
  | some content => exact heeds_appendText (sited.mono (le_trans k₁ (le_trans k₂ k₃))) content _

omit calls given [Double Num] in
/-- The node that `xsl:copy` makes is in the trees. -/
theorem heeds_copiedNode (documentNode : XmlNode) :
    Heeds start chart (copiedNode context documentNode) fun later result =>
      later.realm result = some .tree := by
  unfold copiedNode
  split
  next =>
    have attached : Heeds start chart (changing fun heap =>
        some ((), copyAttributeNode context.result context.documentNode heap)) fun _ _ => True := by
      refine heeds_changing fun later heap answer after known charted done => ?_
      cases done
      exact charted.copyAttributeNode (known _ _ sited.result)
    exact attached.bind fun later _ known _ => knows_pure (known _ _ sited.result)
  next =>
    refine (heeds_appendChild sited.result (by decide)).bind fun c₁ result k₁ new => ?_
    have filled : Heeds start c₁ (changeNode result fun cell => { cell with
        content := documentNode.content }) fun _ _ => True :=
      heeds_write new _ fun _ => ⟨rfl, rfl, rfl, rfl, rfl, rfl⟩
    exact filled.bind fun c₂ _ k₂ _ => knows_pure (k₂ _ _ new)
  next =>
    refine (heeds_appendChild sited.result (by decide)).bind fun c₁ result k₁ new => ?_
    have named : Heeds start c₁ (changeNode result fun cell => { cell with
        name := documentNode.name }) fun _ _ => True :=
      heeds_write new _ fun _ => ⟨rfl, rfl, rfl, rfl, rfl, rfl⟩
    exact named.bind fun c₂ _ k₂ _ => knows_pure (k₂ _ _ new)
  next => exact knows_pure sited.result

omit [Double Num] in
theorem heeds_instructionCopy :
    Heeds start chart (instructionCopy call context instruction) fun _ _ => True := by
  refine heeds_reads fun c₁ documentNode k₁ => ?_
  refine (heeds_copiedNode (sited.mono k₁) documentNode).bind fun c₂ result k₂ tree => ?_
  refine heeds_nodeOf fun c₃ heap k₃ charted => knows_ite (fun _ => knows_pure trivial) fun _ => ?_
  refine heeds_newContext fun c₄ k₄ => calls c₄ _ _ ?_
  have later := sited.mono (le_trans k₁ (le_trans k₂ (le_trans k₃ k₄)))
  exact ⟨sited.own, sited.own.children charted given, k₄ _ _ (k₃ _ _ tree), later.documentNode,
    later.parameters, later.locals⟩

omit [Double Num] in
theorem heeds_contentString :
    Heeds start chart (contentString call fuel context instruction) fun _ _ => True := by
  refine heeds_nodeOf fun c₁ heap k₁ charted => ?_
  have later := sited.mono k₁
  exact heeds_xmlEvalString sited.own calls fuel later.locals later.documentNode
    (sited.own.children charted given)

omit [Double Num] in
theorem heeds_instructionMessage :
    Heeds start chart (instructionMessage call fuel context instruction) fun _ _ => True :=
  (heeds_contentString calls fuel sited given).bind fun _ _ _ _ => knows_pure trivial

omit calls given [Double Num] in
theorem heeds_instructionNumber :
    Heeds start chart (instructionNumber context instruction) fun _ _ => True :=
  (heeds_appendChild sited.result (by decide)).bind fun _ _ _ new =>
    heeds_write new _ fun _ => ⟨rfl, rfl, rfl, rfl, rfl, rfl⟩

omit [Double Num] in
theorem heeds_instructionComment :
    Heeds start chart (instructionComment call fuel context instruction) fun _ _ => True := by
  refine (heeds_appendChild sited.result (by decide)).bind fun c₁ node k₁ new => ?_
  refine (heeds_contentString calls fuel (sited.mono k₁) given).bind fun c₂ content k₂ _ => ?_
  exact heeds_write (k₂ _ _ new) _ fun _ => ⟨rfl, rfl, rfl, rfl, rfl, rfl⟩

omit [Double Num] in
theorem heeds_instructionProcessingInstruction :
    Heeds start chart (instructionProcessingInstruction call fuel context instruction)
      fun _ _ => True := by
  refine (heeds_appendChild sited.result (by decide)).bind fun c₁ node k₁ new => ?_
  refine heeds_reads fun c₂ name k₂ => ?_
  have named : Heeds start c₂ (changeNode node fun cell => { cell with name := name })
      fun _ _ => True := heeds_write (k₂ _ _ new) _ fun _ => ⟨rfl, rfl, rfl, rfl, rfl, rfl⟩
  refine named.bind fun c₃ _ k₃ _ => ?_
  have sited := sited.mono (le_trans k₁ (le_trans k₂ k₃))
  refine (heeds_contentString calls fuel sited given).bind fun c₄ content k₄ _ => ?_
  exact heeds_write (k₄ _ _ (k₃ _ _ (k₂ _ _ new))) _ fun _ => ⟨rfl, rfl, rfl, rfl, rfl, rfl⟩

/-- Every function of the table, where the instruction has its name. -/
theorem heeds_instructions : ∀ entry ∈ instructions call fuel,
    (start.heap.get instruction).name = some entry.1 →
    Heeds start chart (entry.2 context instruction) fun _ _ => True := by
  intro entry member name
  simp only [instructions, List.mem_cons, List.not_mem_nil, or_false] at member
  rcases member with rfl | rfl | rfl | rfl | rfl | rfl | rfl | rfl | rfl | rfl | rfl | rfl | rfl |
    rfl | rfl | rfl | rfl
  · exact heeds_instructionCallTemplate calls fuel sited given
  · exact heeds_instructionApplyTemplates calls fuel sited given name
  · exact heeds_instructionAttribute calls fuel sited given
  · exact heeds_instructionElement calls fuel sited given
  · exact heeds_instructionIf calls sited given
  · exact heeds_instructionChoose calls fuel sited given
  · exact heeds_instructionParam calls sited given
  · exact heeds_instructionForEach calls fuel sited given
  · exact heeds_instructionCopyOf fuel sited
  · change Heeds start chart (doLocalVar call context.context context.localVariables
      context.documentNode instruction) _
    exact heeds_doLocalVar sited.own calls sited.locals sited.documentNode given
  · exact heeds_instructionValueOf sited
  · exact heeds_instructionText fuel sited given
  · exact heeds_instructionCopy calls sited given
  · exact heeds_instructionMessage calls fuel sited given
  · change Heeds start chart (instructionNumber context instruction) _
    exact heeds_instructionNumber sited
  · exact heeds_instructionComment calls fuel sited given
  · exact heeds_instructionProcessingInstruction calls fuel sited given

theorem heeds_instructionsProcess {name : Option Bytes}
    (named : (start.heap.get instruction).name = name) :
    Heeds start chart (instructionsProcess call fuel context instruction name)
      fun _ _ => True := by
  unfold instructionsProcess
  cases found : name.bind fun name => (instructions call fuel).lookup name with
  | none => exact knows_pure trivial
  | some function =>
      rcases Option.bind_eq_some_iff.mp found with ⟨text, rfl, listed⟩
      rcases List.lookup_eq_some_iff.mp listed with ⟨front, behind, split, _⟩
      have member : (text, function) ∈ instructions call fuel := by
        rw [split]
        exact List.mem_append_right _ List.mem_cons_self
      exact heeds_instructions calls fuel sited given _ member named

/-! ### Templates -/

theorem heeds_literalNode (plain : (start.heap.get instruction).type ≠ .attribute) :
    Heeds start chart (literalNode call fuel context instruction) fun _ _ => True := by
  have copied : Heeds start chart (evaluating context.context context.localVariables
      fun env heap => (copyNodeToResult env context.context.depth context.documentNode
        context.result instruction heap).bind fun made => some (made.1, made.2.2))
      fun later result => later.realm result = some .tree := by
    refine heeds_evaluating sited.own fun later env heap value after known scope charted done => ?_
    rcases Option.bind_eq_some_iff.mp done with ⟨⟨result, texts, last⟩, made, done⟩
    cases done
    refine scope.copyNodeToResult charted (known _ _ sited.locals) (known _ _ sited.result) ?_ made
    rw [charted.same instruction given.1]
    exact plain
  refine copied.bind fun c₁ result k₁ tree => heeds_nodeOf fun c₂ heap k₂ charted => ?_
  refine knows_ite (fun _ => knows_pure trivial) fun _ => ?_
  have k₂' := le_trans k₁ k₂
  refine (heeds_copyVariables fuel (k₂' _ _ sited.locals)).bind fun c₃ localVariables k₃ frame => ?_
  refine heeds_newContext fun c₄ k₄ => calls c₄ _ _ ?_
  have later := sited.mono (le_trans k₂' (le_trans k₃ k₄))
  exact ⟨sited.own, sited.own.children charted given, k₄ _ _ (k₃ _ _ (k₂ _ _ tree)),
    later.documentNode, later.parameters, k₄ _ _ frame⟩

omit given in
theorem heeds_applyXsltTemplate :
    Heeds start chart (applyXsltTemplate call fuel context) fun _ _ => True := by
  refine heeds_eachGiven sited.own.documents (fun c₁ instr k₁ here => ?_) fuel sited.instruction
  refine heeds_nodeOf fun c₂ heap k₂ charted => ?_
  have later := sited.mono (le_trans k₁ k₂)
  refine knows_ite (fun _ => ?_) fun _ => knows_ite (fun _ => ?_) fun _ => ?_
  · refine knows_ite (fun _ => knows_pure trivial) fun _ => calls c₂ _ _ ?_
    exact ⟨sited.own, sited.own.children charted here, later.result, later.documentNode,
      later.parameters, later.locals⟩
  · refine heeds_instructionsProcess calls fuel later here ?_
    rw [charted.same instr here.1]
  · exact heeds_literalNode calls fuel later here here.2

omit calls given [Double Num] in
theorem heeds_appendDocumentText (content : Option Bytes) :
    Heeds start chart (appendDocumentText context content) fun _ _ => True := by
  cases content with
  | none => exact heeds_stuck
  | some content =>
      exact (heeds_appendChild sited.result (by decide)).bind fun _ _ _ new =>
        heeds_write new _ fun _ => ⟨rfl, rfl, rfl, rfl, rfl, rfl⟩

omit given [Double Num] in
theorem heeds_applyDefaultProcess :
    Heeds start chart (applyDefaultProcess call fuel context) fun _ _ => True := by
  refine heeds_nodeOf fun c₁ heap k₁ charted => ?_
  refine knows_ite (fun _ => heeds_appendDocumentText (sited.mono k₁) _) fun _ => ?_
  refine heeds_eachVisible sited.own.documents (fun c₂ child k₂ visible => ?_) fuel
    (fun n link => charted.children _ n link)
  refine heeds_nodeOf fun c₃ heap k₃ _ => ?_
  have later := sited.mono (le_trans k₁ (le_trans k₂ k₃))
  refine knows_ite (fun _ => heeds_appendDocumentText later _) fun _ => ?_
  refine (heeds_appendChild later.result (by decide)).bind fun c₄ result k₄ new => ?_
  refine (heeds_copyVariables fuel (k₄ _ _ later.locals)).bind fun c₅ localVariables k₅ frame => ?_
  refine heeds_newContext fun c₆ k₆ => calls c₆ _ _ ?_
  have beyond := le_trans k₄ (le_trans k₅ k₆)
  exact ⟨sited.own, by rintro n ⟨⟩, k₆ _ _ (k₅ _ _ new), visible.mono (le_trans k₃ beyond),
    later.parameters.mono beyond, k₆ _ _ frame⟩

omit given in
theorem heeds_processOneNode :
    Heeds start chart (processOneNode call fuel context) fun _ _ => True := by
  have found : Heeds start chart (findTemplate context.context context.documentNode
      context.mode) fun _ template => ∀ n, template = some n → Given start.heap n := by
    exact heeds_findTemplate sited.own _ _
  refine found.bind fun c₁ template k₁ inside => ?_
  cases template with
  | none => exact heeds_applyDefaultProcess calls fuel (sited.mono k₁)
  | some template =>
      refine (heeds_newNode .frame none .empty fun impossible => by cases impossible).bind ?_
      intro c₂ scope k₂ frame
      refine heeds_newContext fun c₃ k₃ => calls c₃ _ _ ?_
      have later := sited.mono (le_trans k₁ (le_trans k₂ k₃))
      exact ⟨sited.own, inside, later.result, later.documentNode, later.parameters,
        k₃ _ _ frame⟩

end Instructions

/-- The functions on contexts keep to the agreement, whatever they call. -/
theorem heeds_perform [Double Num] {start : Memory Num} (fuel : Nat) (chart : Chart) (function : TaskFunction)
    (context : TemplateContext Num) (sited : Sited start.heap chart context) :
    Heeds start chart (perform fuel function context) fun _ _ => True := by
  induction fuel generalizing chart function context with
  | zero => exact heeds_stuck
  | succ fuel inductionHypothesis =>
      cases function with
      | applyXsltTemplate => exact heeds_applyXsltTemplate inductionHypothesis fuel sited
      | processOneNode => exact heeds_processOneNode inductionHypothesis fuel sited

end TurboXSL
