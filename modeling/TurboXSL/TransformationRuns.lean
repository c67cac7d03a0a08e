import TurboXSL.Transforming

namespace TurboXSL

open Library Output Program

/-!
# Runs of transformations

`XSLTProcess` makes the root of its results and the node of its variables, and
processes the document, with a pool in many tasks.  Any number of calls may run
at once, on stylesheets and documents that they share, and their threads take
turns in any order.  What was there before is as it was in every state, and the
trees of the calls are well linked and have no node in common.
-/

variable {Num : Type}

/-- A call of `XSLTProcess` whose document and variables are ready. -/
structure XsltCall (Num : Type) where
  pctx : Transformation Num
  document : NodeId
  /-- The counter of the tasks, where the pool lets the caller wait for them. -/
  workers : Option Nat
  fuel : Nat

/-- The root of the results, and the context of the first task. -/
def XsltCall.begin_ (call : XsltCall Num) (heap : Heap) : Heap × TemplateContext Num :=
  let (heap, ret) := xmlNewNode heap (some (lit "out")) .empty
  let (heap, localVariables) := xmlNewNode heap none .empty
  (heap, {
    context := call.pctx
    result := ret
    documentNode := call.document
    localVariables := localVariables })

/-- `template_task_run_and_wait` -/
def templateTaskRunAndWait (call : Caller Num) (workers : Option Nat)
    (context : TemplateContext Num) (function : TaskFunction) : Thread Num Unit :=
  match workers with
  | none => call function context
  | some workers =>
      if context.context.pool = false then call function context
      else .perform (.start ⟨{ context with workers := some workers }, function, some workers⟩) .done

/-- The calls that have begun: their contexts, and what their threads do. -/
def beginAll : List (XsltCall Num) → Heap → Heap × List (XsltCall Num × TemplateContext Num)
  | [], heap => (heap, [])
  | call :: rest, heap =>
      let (heap, context) := call.begin_ heap
      let (heap, others) := beginAll rest heap
      (heap, (call, context) :: others)

/-- The threads of all calls, before any of them does anything. -/
def begun [Double Num] (calls : List (XsltCall Num)) (start : Memory Num) :
    Threads (Operation Num) (Memory Num) where
  state := { start with heap := (beginAll calls start.heap).1 }
  threads := (beginAll calls start.heap).2.map fun (call, context) =>
    templateTaskRunAndWait (perform call.fuel) call.workers context .processOneNode

/-! ## The chart at the beginning -/

/-- Nothing has been made yet. -/
def Chart.blank : Chart := ⟨fun _ => none, fun _ => none, fun _ => []⟩

theorem Documents.charted {start : Heap} (documents : Documents start) :
    Charted start .blank start where
  grows := Nat.le_refl _
  charted := fun n => iff_of_false (by rintro ⟨⟩) fun both => absurd both.2 (Nat.not_lt.mpr both.1)
  same := fun _ _ => rfl
  forest := by
    constructor
    · rintro n ⟨⟩
    · rintro n ⟨⟩
    · rintro n owner ⟨⟩
    · rintro n later ⟨⟩
    · rintro n earlier ⟨⟩
  parents := by rintro n ⟨⟩
  rows := by rintro n ⟨⟩
  bare := fun _ _ => rfl
  hangs := by rintro n owner ⟨⟩
  plain := by rintro n ⟨⟩
  attributes := by rintro n a (⟨⟨⟩⟩ | ⟨⟨⟩⟩)
  onward := by rintro n m ⟨⟩
  children := fun n c link => .inl (documents.children n c link)

section Beginning

variable {start heap : Heap} {chart : Chart}

theorem XsltCall.sited (call : XsltCall Num) (sound : SoundStart call.pctx start)
    (given : Given start call.document) (charted : Charted start chart heap) :
    Onward start chart (call.begin_ heap).1 fun later =>
      Sited start later (call.begin_ heap).2 ∧
        later.parent (call.begin_ heap).2.result = none := by
  have grown := charted.alloc .tree { type := .empty, name := some (lit "out"), uid := some heap.size }
    rfl rfl rfl rfl rfl fun _ impossible => by cases impossible
  have framed := grown.newNode .frame none .empty fun impossible => by cases impossible
  have root : (chart.grow heap.size (heap.size + 1) .tree none).realm heap.size = some .tree :=
    chart.grown .tree (Nat.le_refl _) (Nat.lt_succ_self _)
  rcases framed with ⟨later, grows, fits, frame⟩
  refine ⟨later, le_trans (charted.le_grow _ _ _) grows, fits, ⟨sound, ?_, ?_, ?_, ?_, frame⟩, ?_⟩
  · rintro n ⟨⟩
  · exact grows _ _ root
  · exact .inl given
  · exact .none_ later
  · exact (grows.parent _ root).trans (if_pos ⟨Nat.le_refl _, Nat.lt_succ_self _⟩)

theorem beginAll_sited (calls : List (XsltCall Num))
    (sound : ∀ call ∈ calls, SoundStart call.pctx start ∧ Given start call.document)
    (charted : Charted start chart heap) :
    Onward start chart (beginAll calls heap).1 fun later =>
      ∀ entry ∈ (beginAll calls heap).2, Sited start later entry.2 ∧
        later.parent entry.2.result = none := by
  induction calls generalizing heap chart with
  | nil => exact charted.stay fun _ impossible => absurd impossible List.not_mem_nil
  | cons call rest inductionHypothesis =>
      have here := sound call List.mem_cons_self
      refine (call.sited here.1 here.2 charted).bind fun second known charted first => ?_
      have others := inductionHypothesis (fun other member =>
        sound other (List.mem_cons_of_mem call member)) charted
      refine others.weaken fun later grows sited entry member => ?_
      rcases List.mem_cons.mp member with rfl | behind
      · exact ⟨first.1.mono grows, (grows.parent _ first.1.result).trans first.2⟩
      · exact sited entry behind

/-- The roots are made one after the other. -/
theorem beginAll_new (calls : List (XsltCall Num)) (heap : Heap) :
    ∀ entry ∈ (beginAll calls heap).2, heap.size ≤ entry.2.result := by
  induction calls generalizing heap with
  | nil => exact fun _ impossible => absurd impossible List.not_mem_nil
  | cons call rest inductionHypothesis =>
      intro entry member
      rcases List.mem_cons.mp member with rfl | behind
      · exact Nat.le_refl heap.size
      · have later := inductionHypothesis (call.begin_ heap).1 entry behind
        exact Nat.le_trans (Nat.le_add_right heap.size 2) later

theorem beginAll_distinct (calls : List (XsltCall Num)) (heap : Heap) :
    (beginAll calls heap).2.Pairwise fun one other => one.2.result ≠ other.2.result := by
  induction calls generalizing heap with
  | nil => exact .nil
  | cons call rest inductionHypothesis =>
      refine .cons (fun other member => ?_) (inductionHypothesis _)
      have later := beginAll_new rest (call.begin_ heap).1 other member
      exact Nat.ne_of_lt (Nat.lt_of_lt_of_le (Nat.lt_add_of_pos_right Nat.two_pos) later)

end Beginning

/-! ## Runs -/

section Runs

variable [Double Num] {calls : List (XsltCall Num)} {start : Memory Num}
  (documents : Documents start.heap)
  (sound : ∀ call ∈ calls, SoundStart call.pctx start.heap ∧ Given start.heap call.document)
  {labels : List Unit} {last : Threads (Operation Num) (Memory Num)}

theorem heeds_templateTaskRunAndWait {chart : Chart} {context : TemplateContext Num} (fuel : Nat)
    (workers : Option Nat) (sited : Sited start.heap chart context) (function : TaskFunction) :
    Heeds start chart (templateTaskRunAndWait (perform fuel) workers context function)
      fun _ _ => True := by
  cases workers with
  | none => exact heeds_perform fuel chart function context sited
  | some workers =>
      refine knows_ite (fun _ => heeds_perform fuel chart function context sited) fun _ => ?_
      refine knows_perform (fun later known => ?_) ?_
      · have sited := sited.mono known
        exact ⟨sited.own, sited.instruction, sited.result, sited.documentNode, sited.parameters,
          sited.locals⟩
      · intro later memory answer after known fits acted
        cases acted
        exact ⟨later, le_refl later, fits, knows_pure trivial⟩

/-- Every task that may be started keeps to the agreement. -/
theorem heeds_started {Answer : Type} {operation : Operation Num Answer}
    {program : Thread Num Unit} {chart : Chart} (may : (keeping start).may operation chart)
    (starts : operation.starts program) : Heeds start chart program fun _ _ => True := by
  cases operation with
  | memory change => exact starts.elim
  | context made => exact starts.elim
  | start task =>
      rcases starts with ⟨fuel, rfl⟩
      exact heeds_perform fuel chart task.function task.context may

include documents sound

/-- In every state of a run there is a chart that the memory fits, and what the
threads still do keeps to it. -/
theorem run_charted
    (run : Run (Turn Operation.acts Operation.starts) (begun calls start) labels last) :
    Exists fun chart => OnChart start chart last.state ∧
      (∀ entry ∈ (beginAll calls start.heap).2, chart.realm entry.2.result = some .tree ∧
        chart.parent entry.2.result = none) ∧
      ∀ program ∈ last.threads, Heeds start chart program fun _ _ => True := by
  rcases beginAll_sited calls sound documents.charted with ⟨first, _, charted, sited⟩
  have fits : OnChart start first (begun calls start).state := ⟨charted, fun _ _ => rfl⟩
  have knows : ∀ program ∈ (begun calls start).threads,
      Heeds start first program fun _ _ => True := by
    intro program member
    rcases List.mem_map.mp member with ⟨entry, inside, rfl⟩
    exact heeds_templateTaskRunAndWait _ _ (sited entry inside).1 _
  rcases run_fits heeds_started run fits knows with ⟨chart, grows, later, heeds⟩
  refine ⟨chart, later, fun entry member => ?_, heeds⟩
  have root := sited entry member
  exact ⟨grows _ _ root.1.result, (grows.parent _ root.1.result).trans root.2⟩

end Runs

/-! ## Two calls on one document -/

/-- `<a>b</a>` -/
def smallDocument : Memory Int where
  heap := Heap.ofList [
    { type := .element, name := some (lit "a"), children := some 1 },
    { type := .text, content := some (lit "b"), parent := some 0 }]
  extra := fun _ => .null
  vars := fun _ => []
  rawout := fun _ => 0

/-- A stylesheet without templates. -/
def plainTransformation : Transformation Int where
  number := 0
  env := .bare Int 0
  depth := 0
  templates := fun _ => none
  namedTempl := fun _ => none
  parallelInstructions := fun _ => false
  pool := false
  outmode := .xml

def twoCalls : List (XsltCall Int) :=
  [⟨plainTransformation, 0, none, 2⟩, ⟨plainTransformation, 0, none, 2⟩]

theorem smallDocument_documents : Documents smallDocument.heap where
  children := by
    intro n c link
    match n with
    | 0 =>
        cases link
        exact ⟨by decide, by decide⟩
    | 1 => cases link
    | n + 2 => cases link
  next := by
    intro n m _ link
    match n with
    | 0 => cases link
    | 1 => cases link
    | n + 2 => cases link

theorem plainTransformation_sound : SoundStart plainTransformation smallDocument.heap where
  whole := by
    constructor
    · rintro heap text after root ⟨⟩
    · rintro heap text after root ⟨⟩
  documents := smallDocument_documents
  attributes := by
    intro n a small link
    match n with
    | 0 => cases link
    | 1 => cases link
    | n + 2 => cases link
  next := by
    intro n m small link
    match n with
    | 0 => cases link
    | 1 => cases link
    | n + 2 => cases link
  templates := by rintro mode entry ⟨⟩
  named := by rintro name t ⟨⟩
  sorts := by
    intro n fuel _ name
    match n with
    | 0 => exact absurd name (by decide)
    | 1 => exact absurd name (by decide)
    | n + 2 => cases name

theorem twoCalls_sound : ∀ call ∈ twoCalls,
    SoundStart call.pctx smallDocument.heap ∧ Given smallDocument.heap call.document := by
  intro call member
  have given : Given smallDocument.heap 0 := ⟨by decide, by decide⟩
  rcases List.mem_pair.mp member with rfl | rfl
  · exact ⟨plainTransformation_sound, given⟩
  · exact ⟨plainTransformation_sound, given⟩

/-- The second call looks for a template. -/
theorem twoCalls_run : Exists fun last =>
    Run (Turn Operation.acts Operation.starts) (begun twoCalls smallDocument) [()] last := by
  refine ⟨_, Run.tail .refl (@Turn.perform _ _ _ _ _ _ [_] [] [] _ _ _ _ rfl ?_)⟩
  exact fun _ impossible => absurd impossible List.not_mem_nil

/-! ## What holds in every state -/

section Later

variable {start : Heap} {chart later : Chart} {before after : Heap}
  (first : Charted start chart before) (grows : chart ≤ later)
  (second : Charted start later after)

include first grows second

/-- The children of a node of the trees stay in front. -/
theorem child_stays {n c : NodeId} (member : chart.realm n = some .tree)
    (child : Child before.links n c) : Child after.links n c := by
  have old := first.row_members member
  have new := second.row_members (grows n _ member)
  exact ⟨later.row n, new.1, (grows.row n member).subset ((child_iff old.1).mp child)⟩

theorem within_stays {root n : NodeId} (member : chart.realm root = some .tree)
    (within : Within before.links root n) : Within after.links root n := by
  induction within with
  | refl => exact .refl
  | tail front child inductionHypothesis =>
      have inside := first.forest.inside_within member front
      exact inductionHypothesis.tail (child_stays first grows second inside child)

/-- New children come behind the old ones, and are new nodes. -/
theorem row_grows {n : NodeId} (member : chart.realm n = some .tree) :
    Exists fun row => Exists fun new =>
      siblings before (before.get n).children = some row ∧
      siblings after (after.get n).children = some (row ++ new) ∧
      ∀ c ∈ new, before.size ≤ c := by
  have old := first.row_members member
  have kept := second.row_members (grows n _ member)
  rcases grows.row n member with ⟨new, split⟩
  refine ⟨chart.row n, new, ?_, ?_, fun c inside => ?_⟩
  · exact siblings_of_chain (first.rows n member) fun c inside => (first.made (old.2 c inside)).2
  · rw [split]
    exact siblings_of_chain (second.rows n (grows n _ member)) fun c inside =>
      (second.made (kept.2 c inside)).2
  · apply Nat.le_of_not_lt
    intro small
    have behind : c ∈ later.row n := split ▸ List.mem_append_right _ inside
    have isTree := kept.2 c behind
    have charted := (first.charted c).mpr ⟨(second.made isTree).1, small⟩
    rcases Option.isSome_iff_exists.mp charted with ⟨realm, here⟩
    have tree : chart.realm c = some .tree := by
      rw [here, ← grows c realm here]
      exact isTree
    -- it hung on the same node before, so it is in both parts of a row
    have hangs : chart.parent c = some n := by
      rw [← grows.parent c tree, ← second.parents c isTree]
      exact (kept.1.owned behind).1
    have twice := (second.rows n (grows n _ member)).nodup
    rw [← split] at twice
    exact (List.nodup_append.mp twice).2.2 c (first.hangs c n tree hangs) c inside rfl

end Later

end TurboXSL
