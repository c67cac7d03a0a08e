import TurboXSL.Instructions

namespace TurboXSL

open Library Output Program

/-!
# What contexts inherit

A dozen places make a new context by copying the fields of another one.  What
is kept by copying the counter and the mode, by the switches of
`template_task_run`, and holds of every SINGLE context, holds of all contexts
that a run makes, whatever other threads do to the memory meanwhile.
-/

variable {Num : Type}

/-- A property of contexts that new ones have from those they are made of. -/
structure Inheritable (inherited : TemplateContext Num → Prop) : Prop where
  spot : ∀ context, context.taskMode = .single → inherited context
  copied : ∀ {context made}, inherited context → made.workers = context.workers →
    made.taskMode = context.taskMode → inherited made
  switched : ∀ {context} (mode : TemplateTaskMode), inherited context →
    context.taskMode ≠ .single → inherited { context with taskMode := mode }

/-- Contexts with the property are made, and tasks with it are started: such a
task carries the counter of its context. -/
def Making (inherited : TemplateContext Num → Prop) :
    (Answer : Type) → Operation Num Answer → Prop
  | _, .memory _ => True
  | _, .context made => inherited made
  | _, .start task => inherited task.context ∧ task.context.taskMode = .default ∧
      task.workers = task.context.workers

section Making

variable {inherited : TemplateContext Num → Prop} {Value : Type}

theorem every_access (change : Memory Num → Option (Value × Memory Num)) :
    Every (Making inherited) (access change) :=
  ⟨trivial, fun _ => trivial⟩

theorem every_newContext {context : TemplateContext Num}
    {next : TemplateContext Num → Thread Num Value} (made : inherited context)
    (later : Every (Making inherited) (next context)) :
    Every (Making inherited) (newContext context >>= next) :=
  ⟨made, fun _ => later⟩

theorem every_loopNodes {Acc : Type} {body : Acc → NodeId → Thread Num (Except Acc Acc)}
    (round : ∀ acc node, Every (Making inherited) (body acc node)) (fuel : Nat) (nodes : Ptr)
    (acc : Acc) : Every (Making inherited) (loopNodes body fuel nodes acc) := by
  induction fuel generalizing nodes acc with
  | zero =>
      cases nodes with
      | none => exact every_pure acc
      | some node => exact every_access _
  | succ fuel inductionHypothesis =>
      cases nodes with
      | none => exact every_pure acc
      | some node =>
          rw [loopNodes]
          refine (round acc node).bind fun left => ?_
          cases left with
          | error acc => exact every_pure acc
          | ok acc => exact (every_access _).bind fun cell => inductionHypothesis cell.next acc

theorem every_eachNode {body : NodeId → Thread Num Unit}
    (round : ∀ node, Every (Making inherited) (body node)) (fuel : Nat) (nodes : Ptr) :
    Every (Making inherited) (eachNode fuel nodes body) :=
  every_loopNodes (fun _ node => (round node).bind fun _ => every_pure _) fuel nodes ()

theorem every_copyVariables (fuel : Nat) (frame : NodeId) :
    Every (Making inherited) (copyVariables fuel frame : Thread Num NodeId) := by
  refine (every_access _).bind fun result => (every_access _).bind fun cell => ?_
  refine Every.bind ?_ fun _ => every_pure _
  refine every_eachNode (fun variable_ => ?_) fuel cell.attributes
  refine (every_access _).bind fun original => (every_access _).bind fun copy => ?_
  refine (every_access _).bind fun value => (every_access _).bind fun _ => ?_
  exact (every_access _).bind fun made => (every_access _).bind fun _ => every_access _

section Expressions

variable [Double Num]

theorem every_evalNode (pctx : Transformation Num) (locals current : NodeId)
    (expr : Option Bytes) (node : NodeId) :
    Every (Making inherited) (evalNode pctx locals current expr node) := by
  refine (every_access _).bind fun _ => (every_access _).bind fun etree => ?_
  refine every_ite (fun _ => every_pure _) fun _ => ?_
  exact (every_access _).bind fun value => every_access _

theorem every_sortedSelection (pctx : Transformation Num) (locals : NodeId) (selection : Ptr)
    (child : NodeId) :
    Every (Making inherited) (sortedSelection pctx locals selection child) := by
  refine (every_access _).bind fun select => (every_access _).bind fun compiled => ?_
  exact (every_access _).bind fun cell => every_access _

end Expressions

end Making

/-! ## What calls inherit -/

section Calls

variable {inherited : TemplateContext Num → Prop} {call : Caller Num} (inherits : Inheritable inherited)
  (calls : ∀ function context, inherited context → Every (Making inherited) (call function context))
  (fuel : Nat)

include inherits calls

theorem every_templateTaskRun (instruction : NodeId) {context : TemplateContext Num}
    (has : inherited context) (function : TaskFunction) :
    Every (Making inherited) (templateTaskRun call instruction context function) := by
  refine every_ite (fun _ => calls function context has) fun pooled => ?_
  have notSingle : context.taskMode ≠ .single := fun single => pooled (.inr single)
  refine (every_access _).bind fun fork => (every_access _).bind fun cell => ?_
  have switched := inherits.switched (context.taskMode.forking fork
    (cell.name.elim false context.context.parallelInstructions)).1 has notSingle
  refine every_ite (fun forks => ?_) fun _ => calls function _ switched
  refine ⟨⟨switched, ?_, rfl⟩, fun _ => trivial⟩
  dsimp only
  generalize cell.name.elim false context.context.parallelInstructions = parallel at forks ⊢
  unfold TemplateTaskMode.forking at forks ⊢
  cases mode : context.taskMode with
  | single => exact absurd mode notSingle
  | deny =>
      simp only [mode] at forks ⊢
      split at forks
      next yes => simp only [yes, if_true]
      next => cases forks
  | default =>
      simp only [mode] at forks ⊢
      cases fork with
      | none => rfl
      | some fork =>
          simp only at forks ⊢
          split at forks
          next => cases forks
          next notNo =>
              simp only [notNo, if_false] at forks ⊢
              split at forks
              next => cases forks
              next notDeny => simp only [notDeny, if_false]

theorem every_treeValue (pctx : Transformation Num) (locals doc : NodeId) (content : Ptr)
    (node : NodeId) : Every (Making inherited) (treeValue call pctx locals doc content node) := by
  refine (every_access _).bind fun nodeset => (every_access _).bind fun _ => ?_
  have made := inherits.spot { context := pctx, instruction := content, result := nodeset,
                               documentNode := doc, localVariables := locals,
                               taskMode := .single } rfl
  exact every_newContext made (calls _ _ made)

theorem every_xmlEvalString (pctx : Transformation Num) (locals source : NodeId)
    (foreval : Ptr) :
    Every (Making inherited) (xmlEvalString call fuel pctx locals source foreval) := by
  refine (every_access _).bind fun tmp => ?_
  have made := inherits.spot { context := pctx, instruction := foreval, result := tmp,
                               documentNode := source, localVariables := locals,
                               taskMode := .single } rfl
  exact every_newContext made ((calls _ _ made).bind fun _ => every_access _)

theorem every_visitNode (instruction node : NodeId) {context : TemplateContext Num}
    (has : inherited context) (function : TaskFunction) :
    Every (Making inherited) (visitNode call instruction node context function) := by
  refine (every_access _).bind fun parallel => ?_
  exact every_ite (fun _ => every_templateTaskRun inherits calls instruction has function)
    fun _ => calls function context has

variable [Double Num]

theorem every_withParam (context : TemplateContext Num) (child : NodeId) (parameters : Ptr) :
    Every (Making inherited) (withParam call context child parameters) := by
  refine (every_access _).bind fun name => (every_access _).bind fun parameter => ?_
  refine (every_access _).bind fun _ => (every_access _).bind fun select => ?_
  refine Every.bind ?_ fun _ => every_pure _
  unfold parameterValue
  cases select with
  | none => exact (every_access _).bind fun cell => every_treeValue inherits calls _ _ _ _ _
  | some select => exact every_evalNode _ _ _ _ _

theorem every_doLocalVar (pctx : Transformation Num) (vars doc var : NodeId) :
    Every (Making inherited) (doLocalVar call pctx vars doc var) := by
  refine (every_access _).bind fun vname => (every_access _).bind fun vsel => ?_
  refine Every.bind ?_ fun tmp => ?_
  · refine (every_access _).bind fun found => ?_
    cases found with
    | none =>
        refine (every_access _).bind fun tmp => (every_access _).bind fun frame => ?_
        exact (every_access _).bind fun _ => (every_access _).bind fun _ => every_pure _
    | some tmp => exact (every_access _).bind fun _ => every_pure _
  · cases vsel with
    | none => exact (every_access _).bind fun cell => every_treeValue inherits calls _ _ _ _ _
    | some vsel => exact every_evalNode _ _ _ _ _

/-! ### The instructions -/

variable {context : TemplateContext Num} (has : inherited context) (instruction : NodeId)

include has

theorem every_instructionCallTemplate :
    Every (Making inherited) (instructionCallTemplate call fuel context instruction) := by
  refine (every_access _).bind fun templateName => ?_
  refine Every.bind ?_ fun template => ?_
  · unfold templateByname
    split
    next => exact every_pure _
    next => exact (every_access _).bind fun cell => every_pure _
  · cases template with
    | none => exact every_ite (fun _ => every_access _) fun _ => every_pure _
    | some template =>
        refine (every_access _).bind fun cell => ?_
        refine Every.bind (every_loopNodes (fun parameters i => ?_) fuel _ _) fun parameters => ?_
        · refine (every_access _).bind fun child => ?_
          refine every_ite (fun _ => every_pure _) fun _ => ?_
          exact (every_withParam inherits calls context i parameters).bind fun _ => every_pure _
        · refine (every_access _).bind fun localVariables => (every_access _).bind fun result => ?_
          have made : inherited {
            context := context.context, instruction := some template, result := result,
            documentNode := context.documentNode, parameters := parameters,
            localVariables := localVariables, workers := context.workers,
            taskMode := context.taskMode } := inherits.copied has rfl rfl
          exact every_newContext made (every_templateTaskRun inherits calls instruction made _)

theorem every_instructionApplyTemplates :
    Every (Making inherited) (instructionApplyTemplates call fuel context instruction) := by
  refine (every_access _).bind fun select => ?_
  refine Every.bind ?_ fun selection => ?_
  · unfold appliedSelection
    cases select with
    | none => exact (every_access _).bind fun document => every_pure _
    | some select => exact (every_access _).bind fun etree => every_access _
  · refine (every_access _).bind fun cell => ?_
    refine Every.bind (every_loopNodes (fun acc child => ?_) fuel _ _) fun found => ?_
    · refine (every_access _).bind fun child_ => ?_
      refine every_ite (fun _ => every_pure _) fun _ => ?_
      refine every_ite (fun _ => ?_) fun _ => every_ite (fun _ => every_pure _) fun _ => ?_
      · exact (every_withParam inherits calls context child acc.2).bind fun _ => every_pure _
      · exact (every_sortedSelection _ _ _ _).bind fun _ => every_pure _
    · refine (every_access _).bind fun localVariables => (every_access _).bind fun mode => ?_
      refine every_eachNode (fun node => (every_access _).bind fun result => ?_) fuel _
      have made : inherited {
        context := context.context, result := result, documentNode := node,
        parameters := found.2.or context.parameters, localVariables := localVariables,
        mode := mode, workers := context.workers, taskMode := context.taskMode } := inherits.copied has rfl rfl
      exact every_newContext made (every_visitNode inherits calls instruction node made _)

omit has in
theorem every_instructionAttribute :
    Every (Making inherited) (instructionAttribute call fuel context instruction) := by
  refine (every_access _).bind fun name => (every_access _).bind fun attributeName => ?_
  refine (every_access _).bind fun cell => ?_
  exact (every_xmlEvalString inherits calls fuel _ _ _ _).bind fun value => every_access _

theorem every_instructionElement :
    Every (Making inherited) (instructionElement call fuel context instruction) := by
  refine (every_access _).bind fun name => (every_access _).bind fun elementName => ?_
  refine (every_access _).bind fun element => (every_access _).bind fun _ => ?_
  refine Every.bind ?_ fun _ => (every_copyVariables fuel _).bind fun localVariables => ?_
  · refine (every_access _).bind fun namespace_ => ?_
    cases namespace_ with
    | none => exact every_pure _
    | some namespace_ =>
        refine (every_access _).bind fun value => (every_access _).bind fun attribute_ => ?_
        exact (every_access _).bind fun _ => every_access _
  · refine (every_access _).bind fun cell => ?_
    have made : inherited {
      context := context.context, instruction := cell.children, result := element,
      documentNode := context.documentNode, parameters := context.parameters,
      localVariables := localVariables, workers := context.workers,
      taskMode := context.taskMode } := inherits.copied has rfl rfl
    exact every_newContext made (every_templateTaskRun inherits calls instruction made _)

omit [Double Num] in
theorem every_contentInPlace :
    Every (Making inherited) (contentInPlace call context instruction) := by
  refine (every_access _).bind fun cell => ?_
  have made : inherited {
    context := context.context, instruction := cell.children, result := context.result,
    documentNode := context.documentNode, parameters := context.parameters,
    localVariables := context.localVariables, workers := context.workers,
    taskMode := context.taskMode } := inherits.copied has rfl rfl
  exact every_newContext made (calls _ _ made)

omit inherits calls has in
theorem every_evalTest (branch : NodeId) :
    Every (Making inherited) (evalTest context branch) :=
  (every_access _).bind fun _ => (every_access _).bind fun _ => every_access _

theorem every_instructionIf :
    Every (Making inherited) (instructionIf call context instruction) :=
  (every_evalTest instruction).bind fun _ =>
    every_ite (fun _ => every_contentInPlace inherits calls has instruction)
      fun _ => every_pure _

theorem every_instructionChoose :
    Every (Making inherited) (instructionChoose call fuel context instruction) := by
  refine (every_access _).bind fun cell => ?_
  refine Every.bind (every_loopNodes (fun acc i => ?_) fuel _ _) fun found => ?_
  · refine (every_access _).bind fun child => every_ite (fun _ => ?_) fun _ => every_pure _
    refine (every_evalTest i).bind fun holds => every_ite (fun _ => ?_) fun _ => every_pure _
    exact (every_contentInPlace inherits calls has i).bind fun _ => every_pure _
  · rcases found with ⟨_ | otherwise, chosen⟩
    · exact every_pure _
    · exact every_ite (fun _ => every_pure _)
        fun _ => every_contentInPlace inherits calls has otherwise

omit has in
theorem every_instructionParam :
    Every (Making inherited) (instructionParam call context instruction) := by
  refine (every_access _).bind fun name => (every_access _).bind fun select => ?_
  refine (every_access _).bind fun given => (every_access _).bind fun cell => ?_
  refine every_ite (fun _ => every_doLocalVar inherits calls _ _ _ _) fun _ => ?_
  refine (every_access _).bind fun found => ?_
  cases found with
  | none => exact every_pure _
  | some param =>
      refine (every_access _).bind fun tmp => (every_access _).bind fun frame => ?_
      exact (every_access _).bind fun _ => (every_access _).bind fun _ => every_access _

theorem every_instructionForEach :
    Every (Making inherited) (instructionForEach call fuel context instruction) := by
  refine (every_access _).bind fun select => (every_access _).bind fun etree => ?_
  refine (every_access _).bind fun selection => (every_access _).bind fun cell => ?_
  refine Every.bind (every_loopNodes (fun acc child => ?_) fuel _ _) fun found => ?_
  · refine (every_access _).bind fun child_ => ?_
    refine every_ite (fun _ => every_pure _) fun _ => every_ite (fun _ => every_pure _) fun _ => ?_
    exact (every_sortedSelection _ _ _ _).bind fun _ => every_pure _
  · refine every_eachNode (fun node => (every_access _).bind fun result => ?_) fuel _
    refine (every_copyVariables fuel _).bind fun localVariables => ?_
    have made : inherited {
      context := context.context, instruction := found.2, result := result,
      documentNode := node, parameters := context.parameters, localVariables := localVariables,
      workers := context.workers, taskMode := context.taskMode } := inherits.copied has rfl rfl
    exact every_newContext made (every_visitNode inherits calls instruction node made _)

omit [Double Num] inherits calls has in
theorem every_appendText (content : Bytes) (flags : Nat) :
    Every (Making inherited) (appendText context content flags) :=
  (every_access _).bind fun _ => every_access _

omit inherits calls has in
theorem every_instructionValueOf :
    Every (Making inherited) (instructionValueOf context instruction) := by
  refine (every_access _).bind fun select => (every_access _).bind fun etree => ?_
  refine (every_access _).bind fun content => ?_
  cases content with
  | none => exact every_pure _
  | some content => exact (every_access _).bind fun cell => every_appendText _ _

omit [Double Num] inherits calls has in
theorem every_instructionText :
    Every (Making inherited) (instructionText fuel context instruction) := by
  refine (every_access _).bind fun cell => every_eachNode (fun i => ?_) fuel _
  refine (every_access _).bind fun child => every_ite (fun _ => ?_) fun _ => every_pure _
  cases child.content with
  | none => exact every_access _
  | some content => exact every_appendText _ _

omit [Double Num] in
theorem every_instructionCopy :
    Every (Making inherited) (instructionCopy call context instruction) := by
  refine (every_access _).bind fun documentNode => ?_
  refine Every.bind ?_ fun result => (every_access _).bind fun cell => ?_
  · unfold copiedNode
    split
    next => exact (every_access _).bind fun _ => every_pure _
    next => exact (every_access _).bind fun _ => (every_access _).bind fun _ => every_pure _
    next => exact (every_access _).bind fun _ => (every_access _).bind fun _ => every_pure _
    next => exact every_pure _
  · refine every_ite (fun _ => every_pure _) fun _ => ?_
    have made : inherited {
      context := context.context, instruction := cell.children, result := result,
      documentNode := context.documentNode, parameters := context.parameters,
      localVariables := context.localVariables, workers := context.workers,
      taskMode := context.taskMode } := inherits.copied has rfl rfl
    exact every_newContext made (calls _ _ made)

omit [Double Num] has in
theorem every_contentString :
    Every (Making inherited) (contentString call fuel context instruction) :=
  (every_access _).bind fun _ => every_xmlEvalString inherits calls fuel _ _ _ _

omit [Double Num] has in
theorem every_instructionComment :
    Every (Making inherited) (instructionComment call fuel context instruction) :=
  (every_access _).bind fun _ =>
    (every_contentString inherits calls fuel instruction).bind fun _ => every_access _

omit [Double Num] has in
theorem every_instructionProcessingInstruction :
    Every (Making inherited) (instructionProcessingInstruction call fuel context instruction) := by
  refine (every_access _).bind fun node => (every_access _).bind fun name => ?_
  refine (every_access _).bind fun _ => ?_
  exact (every_contentString inherits calls fuel instruction).bind fun _ => every_access _

/-- Every function of the table. -/
theorem every_instructions :
    ∀ entry ∈ instructions call fuel, Every (Making inherited) (entry.2 context instruction) := by
  intro entry member
  simp only [instructions, List.mem_cons, List.not_mem_nil, or_false] at member
  rcases member with rfl | rfl | rfl | rfl | rfl | rfl | rfl | rfl | rfl | rfl | rfl | rfl | rfl |
    rfl | rfl | rfl | rfl
  · exact every_instructionCallTemplate inherits calls fuel has instruction
  · exact every_instructionApplyTemplates inherits calls fuel has instruction
  · exact every_instructionAttribute inherits calls fuel instruction
  · exact every_instructionElement inherits calls fuel has instruction
  · exact every_instructionIf inherits calls has instruction
  · exact every_instructionChoose inherits calls fuel has instruction
  · exact every_instructionParam inherits calls instruction
  · exact every_instructionForEach inherits calls fuel has instruction
  · refine (every_access _).bind fun select => ?_
    cases select with
    | none => exact every_pure _
    | some select => exact every_access _
  · exact every_doLocalVar inherits calls _ _ _ _
  · exact every_instructionValueOf instruction
  · exact every_instructionText fuel instruction
  · exact every_instructionCopy inherits calls has instruction
  · exact (every_contentString inherits calls fuel instruction).bind fun _ => every_pure _
  · exact (every_access _).bind fun _ => every_access _
  · exact every_instructionComment inherits calls fuel instruction
  · exact every_instructionProcessingInstruction inherits calls fuel instruction

theorem every_instructionsProcess (name : Option Bytes) :
    Every (Making inherited) (instructionsProcess call fuel context instruction name) := by
  unfold instructionsProcess
  split
  next => exact every_pure _
  next function found =>
    rcases Option.bind_eq_some_iff.mp found with ⟨name, _, listed⟩
    rcases List.lookup_eq_some_iff.mp listed with ⟨before, behind, split, _⟩
    apply every_instructions inherits calls fuel has instruction (name, function)
    rw [split]
    exact List.mem_append_right _ List.mem_cons_self

theorem every_literalNode :
    Every (Making inherited) (literalNode call fuel context instruction) := by
  refine (every_access _).bind fun result => (every_access _).bind fun cell => ?_
  refine every_ite (fun _ => every_pure _) fun _ => ?_
  refine (every_copyVariables fuel _).bind fun localVariables => ?_
  have made : inherited {
    context := context.context, instruction := cell.children, result := result,
    documentNode := context.documentNode, parameters := context.parameters,
    localVariables := localVariables, workers := context.workers,
    taskMode := context.taskMode } := inherits.copied has rfl rfl
  exact every_newContext made (calls _ _ made)

/-! ### Templates -/

theorem every_applyXsltTemplate :
    Every (Making inherited) (applyXsltTemplate call fuel context) := by
  refine every_eachNode (fun instr => (every_access _).bind fun cell => ?_) fuel _
  refine every_ite (fun _ => every_ite (fun _ => every_pure _) fun _ => ?_) fun _ => ?_
  · exact calls _ _ (inherits.copied has rfl rfl)
  · exact every_ite (fun _ => every_instructionsProcess inherits calls fuel has instr _)
      fun _ => every_literalNode inherits calls fuel has instr

omit [Double Num] inherits calls has in
theorem every_appendDocumentText (content : Option Bytes) :
    Every (Making inherited) (appendDocumentText context content) := by
  cases content with
  | none => exact every_access _
  | some content => exact (every_access _).bind fun _ => every_access _

omit [Double Num] in
theorem every_applyDefaultProcess :
    Every (Making inherited) (applyDefaultProcess call fuel context) := by
  refine (every_access _).bind fun document => ?_
  refine every_ite (fun _ => every_appendDocumentText _) fun _ => ?_
  refine every_eachNode (fun child => (every_access _).bind fun cell => ?_) fuel _
  refine every_ite (fun _ => every_appendDocumentText _) fun _ => ?_
  refine (every_access _).bind fun result => (every_copyVariables fuel _).bind fun locals => ?_
  have made : inherited {
    context := context.context, result := result, documentNode := child,
    parameters := context.parameters, localVariables := locals, mode := context.mode,
    workers := context.workers, taskMode := context.taskMode } := inherits.copied has rfl rfl
  exact every_newContext made (calls _ _ made)

theorem every_processOneNode :
    Every (Making inherited) (processOneNode call fuel context) := by
  refine (every_access _).bind fun template => ?_
  cases template with
  | none => exact every_applyDefaultProcess inherits calls fuel has
  | some template =>
      refine (every_access _).bind fun scope => ?_
      have made : inherited {
        context := context.context, instruction := some template, result := context.result,
        documentNode := context.documentNode, parameters := context.parameters,
        localVariables := scope, workers := context.workers,
        taskMode := context.taskMode } := inherits.copied has rfl rfl
      exact every_newContext made (calls _ _ made)

end Calls

/-- Whatever runs on a context makes contexts that inherit from it. -/
theorem every_perform [Double Num] {inherited : TemplateContext Num → Prop}
    (inherits : Inheritable inherited) (fuel : Nat) (function : TaskFunction)
    (context : TemplateContext Num) (has : inherited context) :
    Every (Making inherited) (perform fuel function context) := by
  induction fuel generalizing function context with
  | zero => exact every_access _
  | succ fuel inductionHypothesis =>
      cases function with
      | applyXsltTemplate => exact every_applyXsltTemplate inherits inductionHypothesis fuel has
      | processOneNode => exact every_processOneNode inherits inductionHypothesis fuel has

/-! ## Content of variables -/

/-- Nothing is handed to the pool, and every context that is made is SINGLE. -/
def OnTheSpot : (Answer : Type) → Operation Num Answer → Prop
  | _, .memory _ => True
  | _, .context made => made.taskMode = .single
  | _, .start _ => False

theorem inheritable_single :
    Inheritable fun context : TemplateContext Num => context.taskMode = .single where
  spot := fun _ single => single
  copied := fun single _ same => same.trans single
  switched := fun _ single notSingle => absurd single notSingle

theorem every_onTheSpot {Value : Type} {program : Thread Num Value}
    (making : Every (Making fun context => context.taskMode = .single) program) :
    Every OnTheSpot program := by
  apply making.mono
  intro Answer operation allowed
  cases operation with
  | memory change => trivial
  | context made => exact allowed
  | start task => exact nomatch allowed.1.symm.trans allowed.2.1

/-- A thread alone with the memory; what becomes of a task that it hands to the
pool before it goes on is left to `start`. -/
def alone (start : TemplateTask Num → Memory Num → Option (Memory Num)) :
    (Answer : Type) → Operation Num Answer → Memory Num → Option (Answer × Memory Num)
  | _, .memory change, memory => change memory
  | _, .context _, memory => some ((), memory)
  | _, .start task, memory => (start task memory).map ((), ·)

/-- Without tasks it makes no difference what becomes of them. -/
theorem run_onTheSpot {Value : Type} {program : Thread Num Value}
    (every : Every OnTheSpot program)
    (start other : TemplateTask Num → Memory Num → Option (Memory Num)) (memory : Memory Num) :
    program.run (alone start) memory = program.run (alone other) memory := by
  induction program generalizing memory with
  | done value => rfl
  | perform operation next inductionHypothesis =>
      cases operation with
      | memory change =>
          apply congrArg (Option.bind (change memory))
          funext result
          exact inductionHypothesis result.1 (every.2 result.1) result.2
      | context made => exact inductionHypothesis () (every.2 ()) memory
      | start task => exact every.1.elim

/-- From a SINGLE context on, and so in `do_local_var`, in `xml_eval_string` and
in the evaluation of parameters, only SINGLE contexts are made and nothing is
handed to the pool, and the tree is complete when the call returns: it does
not depend on what the pool does with tasks. -/
theorem single_stays_on_the_spot [Double Num] (fuel : Nat) (function : TaskFunction)
    (context : TemplateContext Num) (single : context.taskMode = .single) :
    Every OnTheSpot (perform fuel function context) ∧
      (∀ start other memory, (perform fuel function context).run (alone start) memory =
        (perform fuel function context).run (alone other) memory) ∧
      ∀ (pctx : Transformation Num) (caller : TemplateContext Num) (locals doc node : NodeId)
        (nodes : Ptr),
        Every OnTheSpot (doLocalVar (perform fuel) pctx locals doc node) ∧
        Every OnTheSpot (xmlEvalString (perform fuel) fuel pctx locals doc nodes) ∧
        Every OnTheSpot (withParam (perform fuel) caller node nodes) := by
  have calls := @every_perform Num _ _ inheritable_single fuel
  have spot := every_onTheSpot (calls function context single)
  refine ⟨spot, run_onTheSpot spot, ?_⟩
  intro pctx caller locals doc node nodes
  refine ⟨every_onTheSpot ?_, every_onTheSpot ?_, every_onTheSpot ?_⟩
  · exact every_doLocalVar inheritable_single calls pctx locals doc node
  · exact every_xmlEvalString inheritable_single calls fuel pctx locals doc nodes
  · exact every_withParam inheritable_single calls caller node nodes

/-- A transformation with a pool and without templates. -/
def emptyTransformation : Transformation Int where
  number := 0
  env := .bare Int 0
  depth := 1
  templates := templateMapCreate
  namedTempl := fun _ => none
  parallelInstructions := fun name => name = xslApply ∨ name = xslForeach
  pool := true
  outmode := .xml

/-- The content of a variable in a document of one node. -/
def variableContent : TemplateContext Int where
  context := emptyTransformation
  result := 0
  documentNode := 0
  localVariables := 0
  taskMode := .single

theorem single_stays_on_the_spot_content :
    Every OnTheSpot (perform 2 .processOneNode variableContent) :=
  (single_stays_on_the_spot 2 .processOneNode variableContent rfl).1

end TurboXSL
