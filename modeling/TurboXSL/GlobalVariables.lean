import TurboXSL.ScopeCopies

namespace TurboXSL

open Library Program

/-!
# Global variables

`precompile_variables` goes through the stylesheet and evaluates one declaration
after the other into a table, which the expressions behind it look into.  Only
where every variable is declared before it is used do the expressions see the
values that the table has in the end.
-/

variable {Num : Type}

def xslVar : Bytes := lit "xsl:variable"
def xslTemplate : Bytes := lit "xsl:template"

/-! ## The table -/

/-- `create_variable`, which looks for the name first. -/
def createVariable (vars : List (Bytes × RValue Num)) (name : Bytes) :
    List (Bytes × RValue Num) :=
  if vars.any fun var => decide (var.1 = name) then vars else vars ++ [(name, .null)]

/-- A value is stored where `create_variable` has pointed to. -/
def storeVariable (vars : List (Bytes × RValue Num)) (name : Bytes) (value : RValue Num) :
    List (Bytes × RValue Num) :=
  match vars with
  | [] => []
  | var :: rest =>
      if var.1 = name then (name, value) :: rest else var :: storeVariable rest name value

/-- The memory with another table of the context. -/
def Transformation.withTable (pctx : Transformation Num) (memory : Memory Num)
    (vars : List (Bytes × RValue Num)) : Memory Num :=
  { memory with vars := Function.update memory.vars pctx.number vars }

@[simp] theorem Transformation.withTable_vars (pctx : Transformation Num) (memory : Memory Num)
    (vars : List (Bytes × RValue Num)) :
    (pctx.withTable memory vars).vars pctx.number = vars := Function.update_self _ _ _

theorem Transformation.withTable_idem (pctx : Transformation Num) (memory : Memory Num)
    (vars later : List (Bytes × RValue Num)) :
    pctx.withTable (pctx.withTable memory vars) later = pctx.withTable memory later := by
  unfold Transformation.withTable
  dsimp only
  rw [Function.update_idem]

/-- Change the table of the context. -/
def changeVariables (pctx : Transformation Num)
    (change : List (Bytes × RValue Num) → List (Bytes × RValue Num)) : Thread Num Unit :=
  access fun memory => some ((), pctx.withTable memory (change (memory.vars pctx.number)))

section Precompiling

variable [Double Num] (call : Caller Num) (deep : Nat) (pctx : Transformation Num) (doc : NodeId)

/-- `xpath_eval_node` into a variable, which becomes NULL first. -/
def evalGlobal (dummy : NodeId) (select name : Bytes) : Thread Num Unit := do
  changeVariables pctx fun vars => storeVariable vars name .null
  let etree ← findExpr pctx (some select)
  if etree = .null then pure ()
  else do
    let value ← evaluating pctx dummy fun env heap =>
      xpathExecuteScalar env pctx.depth etree doc
        (heap.modify dummy fun cell => { cell with parent := some doc })
    changeVariables pctx fun vars => storeVariable vars name value

/-- The declaration of a variable; `xmls_equals` has found its name. -/
def declareGlobal (dummy stylesheet : NodeId) (children : Ptr) : Thread Num Unit := do
  let vname ← attributeOf stylesheet xslAName
  let vsel ← attributeOf stylesheet xslASelect
  match vname with
  | none => stuck
  | some name => do
      changeVariables pctx fun vars => createVariable vars name
      match vsel with
      | none => do
          let content ← xmlEvalString call deep pctx dummy doc children
          changeVariables pctx fun vars => storeVariable vars name (.string (some content))
      | some select => evalGlobal pctx doc dummy select name

/-- One element of the stylesheet; templates are left out. -/
def precompileElement (below : Ptr → Thread Num Unit) (dummy stylesheet : NodeId)
    (cell : XmlNode) : Thread Num Unit :=
  if cell.name = some xslVar then declareGlobal call deep pctx doc dummy stylesheet cell.children
  else if cell.children ≠ none ∧ cell.name ≠ some xslTemplate then below cell.children
  else pure ()

/-- `precompile_variables`, with the frame without variables that each call has. -/
def precompileVariables : Nat → NodeId → Ptr → Thread Num Unit
  | _, _, none => pure ()
  | 0, _, some _ => stuck
  | fuel + 1, dummy, some stylesheet => do
      let cell ← nodeOf stylesheet
      precompileElement call deep pctx doc
        (fun children => do
          let inner ← newNode none .empty
          precompileVariables fuel inner children)
        dummy stylesheet cell
      precompileVariables fuel dummy cell.next

end Precompiling

/-! ## What expressions read of the table -/

/-- The scope of global declarations. -/
def Transformation.globalScope (pctx : Transformation Num) (dummy : NodeId)
    (globals : List (Bytes × RValue Num)) : Env Num :=
  { pctx.env with locals := some dummy, localVariables := [], globals := globals }

section Agreement

variable [Double Num] {pctx : Transformation Num} {dummy : NodeId}
  {first second : List (Bytes × RValue Num)}

theorem xfKey_globalScope {run other : Expr → Eval Num}
    (agree : ∀ declaration ∈ pctx.env.keys, ∀ value expression,
      pctx.env.findExpr (declaration.2 value) = some expression →
        other expression = run expression)
    (args : List (Operand Num)) :
    xfKey (pctx.globalScope dummy second) other args =
      xfKey (pctx.globalScope dummy first) run args := by
  funext current heap
  unfold xfKey
  apply Option.bind_congr
  intro values _
  apply Option.bind_congr
  intro keyName _
  cases keyName with
  | none => rfl
  | some keyName =>
      dsimp only
      split
      next => rfl
      next =>
          apply Option.bind_congr
          intro rest _
          apply Option.bind_congr
          intro keyValue _
          cases keyValue with
          | none => rfl
          | some keyValue =>
              have keys (globals : List (Bytes × RValue Num)) :
                  (pctx.globalScope dummy globals).keys = pctx.env.keys := rfl
              dsimp only
              rw [keys, keys]
              cases found : pctx.env.keys.find? fun key => key.1 = keyName with
              | none => rfl
              | some declaration =>
                  apply Option.bind_congr
                  intro expression compiled
                  have same := agree declaration (List.mem_of_find?_eq_some found) keyValue
                    expression compiled
                  unfold xpathEvalSelection
                  rw [same]
                  rfl

theorem executeNode_globalScope {run other : Expr → Eval Num} {head : ExprNode}
    {children next : Expr}
    (agree : ∀ expression,
      (∀ y, Mentions pctx.env y expression → Mentions pctx.env y (.node head children next)) →
        other expression = run expression)
    (same : ∀ y, Mentions pctx.env y (.node head children next) →
      (pctx.globalScope dummy second).variableValue y =
        (pctx.globalScope dummy first).variableValue y) (args : List (Operand Num)) :
    executeNode (pctx.globalScope dummy second) other head args =
      executeNode (pctx.globalScope dummy first) run head args := by
  funext current heap
  unfold executeNode
  cases type : head.type with
  | var =>
      dsimp only
      rw [getVariableRv_eq, getVariableRv_eq, same _ (.here type rfl)]
  | call =>
      dsimp only
      apply Option.bind_congr
      intro name named
      have callbacks (globals : List (Bytes × RValue Num)) :
          (pctx.globalScope dummy globals).perlFunctions = pctx.env.perlFunctions := rfl
      unfold xpathCallDispatcher
      rw [callbacks, callbacks]
      cases pctx.env.perlFunctions name with
      | some callback => rfl
      | none =>
          by_cases isKey : name = lit "key"
          · have keys : xfKey (pctx.globalScope dummy second) other args =
                xfKey (pctx.globalScope dummy first) run args := by
              refine xfKey_globalScope (fun declaration declared value expression found => ?_) args
              apply agree
              intro y mentions
              exact .key type (named.trans (congrArg some isKey)) declared found mentions
            dsimp only
            rw [keys]
            rfl
          · dsimp only
            rw [if_neg isKey, if_neg isKey]
            rfl
  | _ => rfl

theorem operands_globalScope {run other : Expr → Eval Num} (etree : Expr)
    (agree : ∀ expression, (∀ y, Mentions pctx.env y expression → Mentions pctx.env y etree) →
      other expression = run expression)
    (same : ∀ y, Mentions pctx.env y etree → (pctx.globalScope dummy second).variableValue y =
      (pctx.globalScope dummy first).variableValue y) :
    operands (pctx.globalScope dummy second) other etree =
      operands (pctx.globalScope dummy first) run etree := by
  induction etree with
  | null => rfl
  | node head children next below behind =>
      have children_ := below
        (fun e within => agree e fun y mentions => .child (within y mentions))
        fun y mentions => same y (.child mentions)
      have next_ := behind
        (fun e within => agree e fun y mentions => .behind (within y mentions))
        fun y mentions => same y (.behind mentions)
      rw [operands, operands, children_, next_, executeNode_globalScope agree same]

theorem keyEval_globalScope (depth : Nat) (etree : Expr)
    (same : ∀ y, Mentions pctx.env y etree → (pctx.globalScope dummy second).variableValue y =
      (pctx.globalScope dummy first).variableValue y) :
    keyEval (pctx.globalScope dummy second) depth etree =
      keyEval (pctx.globalScope dummy first) depth etree := by
  induction depth generalizing etree with
  | zero => rfl
  | succ depth inductionHypothesis =>
      rw [keyEval, keyEval, operands_globalScope etree (fun e within =>
        inductionHypothesis e fun y mentions => same y (within y mentions)) same]

/-- Tables that agree about the variables of an expression give it one value. -/
theorem xpathExecuteScalar_globalScope (depth : Nat) {etree : Expr}
    (same : ∀ y, Mentions pctx.env y etree → (pctx.globalScope dummy second).variableValue y =
      (pctx.globalScope dummy first).variableValue y) :
    xpathExecuteScalar (pctx.globalScope dummy second) depth etree =
      xpathExecuteScalar (pctx.globalScope dummy first) depth etree := by
  rw [xpathExecuteScalar, xpathExecuteScalar, operandsAt, operandsAt,
    operands_globalScope etree (fun e within =>
      keyEval_globalScope depth e fun y mentions => same y (within y mentions)) same]

end Agreement

/-! ## Declarations in the order of the document -/

/-- The declarations that are met from a node on. -/
inductive Globals (heap : Heap) : Ptr → List NodeId → Prop where
  | done : Globals heap none []
  | variable_ {n : NodeId} {rest : List NodeId} (known : n < heap.size)
      (name : (heap.get n).name = some xslVar) (behind : Globals heap (heap.get n).next rest) :
      Globals heap (some n) (n :: rest)
  | inside {n : NodeId} {below rest : List NodeId} (known : n < heap.size)
      (other : (heap.get n).name ≠ some xslVar)
      (opens : (heap.get n).children ≠ none ∧ (heap.get n).name ≠ some xslTemplate)
      (children : Globals heap (heap.get n).children below)
      (behind : Globals heap (heap.get n).next rest) : Globals heap (some n) (below ++ rest)
  | skipped {n : NodeId} {rest : List NodeId} (known : n < heap.size)
      (other : (heap.get n).name ≠ some xslVar)
      (shut : ¬ ((heap.get n).children ≠ none ∧ (heap.get n).name ≠ some xslTemplate))
      (behind : Globals heap (heap.get n).next rest) : Globals heap (some n) rest

/-- The name and the expression of a declaration with `select`. -/
structure DeclaresGlobal (pctx : Transformation Num) (heap : Heap) (n : NodeId)
    (declared : Bytes × Expr) : Prop where
  element : (heap.get n).type ≠ .empty
  attributes : Exists fun attributes => siblings heap (heap.get n).attributes = some attributes ∧
    ∀ attr ∈ attributes, attr < heap.size
  named : xmlGetAttr heap (some xslAName) (heap.size + 1) n = some (some declared.1)
  selects : Exists fun select =>
    xmlGetAttr heap (some xslASelect) (heap.size + 1) n = some (some select) ∧
      pctx.env.findExpr select = some declared.2

/-- An attribute of an element that nobody writes to. -/
theorem xmlGetAttr_extends {heap later : Heap} (extended : heap.Extends later) {n : NodeId}
    (known : n < heap.size) (element : (heap.get n).type ≠ .empty) {attributes : List NodeId}
    (listed : siblings heap (heap.get n).attributes = some attributes)
    (inside : ∀ attr ∈ attributes, attr < heap.size) (name : Bytes) :
    xmlGetAttr later (some name) (later.size + 1) n =
      xmlGetAttr heap (some name) (heap.size + 1) n := by
  have kept : siblings later (heap.get n).attributes = some attributes := by
    have chain := (follow_eq_some_iff.mp listed).1
    refine siblings_of_chain (chain.congr fun attr member => ?_) fun attr member =>
      Nat.lt_of_lt_of_le (inside attr member) extended.grows
    rw [extended.same attr (inside attr member)]
  have find : attributes.find? (fun attr => decide ((later.get attr).name = some name)) =
      attributes.find? fun attr => decide ((heap.get attr).name = some name) := by
    refine find_congr fun attr member => ?_
    rw [extended.same attr (inside attr member)]
  unfold xmlGetAttr
  rw [extended.same n known, kept, listed, if_neg element, if_neg element]
  refine congrArg some ?_
  rw [find]
  cases first : attributes.find? fun attr => decide ((heap.get attr).name = some name) with
  | none => rfl
  | some attr =>
      have member := List.mem_of_find?_eq_some first
      exact congrArg XmlNode.content (extended.same attr (inside attr member))

/-- The values of declarations, one after the other, each with the values before
it in the table, where its own one is NULL. -/
inductive OneByOne [Double Num] (pctx : Transformation Num) (doc : NodeId) (start : Heap) :
    List (Bytes × RValue Num) → List (Bytes × Expr) → List (RValue Num) → Prop where
  | nil {table : List (Bytes × RValue Num)} : OneByOne pctx doc start table [] []
  | cons {table : List (Bytes × RValue Num)} {x : Bytes} {e : Expr} {value : RValue Num}
      {rest : List (Bytes × Expr)} {values : List (RValue Num)} {dummy : NodeId}
      {heap after : Heap} (extended : start.Extends heap)
      (evaluated : xpathExecuteScalar (pctx.globalScope dummy (table ++ [(x, .null)])) pctx.depth e
        doc heap = some (value, after))
      (later : OneByOne pctx doc start (table ++ [(x, value)]) rest values) :
      OneByOne pctx doc start table ((x, e) :: rest) (value :: values)

section Tables

variable {vars : List (Bytes × RValue Num)} {x : Bytes}

theorem createVariable_new (fresh : x ∉ vars.map Prod.fst) :
    createVariable vars x = vars ++ [(x, .null)] := by
  unfold createVariable
  rw [if_neg]
  intro found
  rcases List.any_eq_true.mp found with ⟨var, member, same⟩
  exact fresh (of_decide_eq_true same ▸ List.mem_map_of_mem member)

theorem storeVariable_last (fresh : x ∉ vars.map Prod.fst) (old value : RValue Num) :
    storeVariable (vars ++ [(x, old)]) x value = vars ++ [(x, value)] := by
  induction vars with
  | nil => exact if_pos rfl
  | cons var rest inductionHypothesis =>
      rw [List.map_cons, List.mem_cons, not_or] at fresh
      rw [List.cons_append, storeVariable, if_neg (Ne.symm fresh.1), inductionHypothesis fresh.2,
        List.cons_append]

/-- The variables that were there already are found before new ones. -/
theorem globalScope_append (pctx : Transformation Num) (dummy : NodeId)
    {more other : List (Bytes × RValue Num)} {y : Option Bytes}
    (unlike : ∀ var ∈ more, y ≠ some var.1) (alike : ∀ var ∈ other, y ≠ some var.1) :
    (pctx.globalScope dummy (vars ++ more)).variableValue y =
      (pctx.globalScope dummy (vars ++ other)).variableValue y := by
  have found (behind : List (Bytes × RValue Num)) (absent : ∀ var ∈ behind, y ≠ some var.1) :
      (vars ++ behind).find? (fun binding => decide (y = some binding.1)) =
        vars.find? fun binding => decide (y = some binding.1) := by
    rw [List.find?_append]
    have nothing : behind.find? (fun binding => decide (y = some binding.1)) = none :=
      List.find?_eq_none.mpr fun var member same => absent var member (of_decide_eq_true same)
    rw [nothing, Option.or_none]
  unfold Env.variableValue Env.globalValue Transformation.globalScope
  dsimp only
  rw [found more unlike, found other alike]

end Tables

/-- The names that are added to the table. -/
theorem map_zip_names {declared : List (Bytes × Expr)} {values : List (RValue Num)}
    (length : values.length = declared.length) :
    ((declared.map Prod.fst).zip values).map Prod.fst = declared.map Prod.fst := by
  rw [List.map_fst_zip]
  rw [List.length_map, length]

/-! ## Runs -/

section Runs

variable {call : Caller Num} {deep : Nat} {pctx : Transformation Num} {doc : NodeId}
  {start : TemplateTask Num → Memory Num → Option (Memory Num)} {memory after : Memory Num}
  {heap : Heap} {dummy : NodeId}

/-- The frame of the declarations is new, and the stylesheet as it was. -/
structure Prepared (heap : Heap) (memory : Memory Num) (dummy : NodeId) : Prop where
  extended : heap.Extends memory.heap
  new : heap.size ≤ dummy
  frame : Owns memory.heap dummy []

theorem Prepared.inner (extended : heap.Extends memory.heap) :
    Prepared heap { memory with heap := (xmlNewNode memory.heap none .empty).1 }
      memory.heap.size := by
  refine ⟨extended.alloc _, extended.grows, ?_, Nat.lt_succ_self _, ?_, ?_⟩
  · dsimp only
    rw [xmlNewNode, Arena.alloc_get_same]
    rfl
  · exact fun _ impossible => absurd impossible List.not_mem_nil
  · exact List.not_mem_nil

/-- Of the nodes there were only the frame is written to, but not its variables. -/
structure Leaves (dummy : NodeId) (before after : Heap) : Prop where
  grows : before.size ≤ after.size
  same : ∀ n < before.size, n ≠ dummy → after.get n = before.get n
  frame : (after.get dummy).attributes = (before.get dummy).attributes

theorem Leaves.trans {first second third : Heap} (one : Leaves dummy first second)
    (two : Leaves dummy second third) : Leaves dummy first third where
  grows := Nat.le_trans one.grows two.grows
  same := fun n known other =>
    (two.same n (Nat.lt_of_lt_of_le known one.grows) other).trans (one.same n known other)
  frame := two.frame.trans one.frame

theorem Leaves.of_allocates {before later : Heap} (allocates : Allocates (some dummy) before later)
    (present : dummy < before.size) : Leaves dummy before later :=
  ⟨allocates.grows, fun n known other =>
    allocates.same n known fun same => other (Option.some.inj same).symm,
    allocates.frame dummy rfl present⟩

/-- What writes to a new frame only leaves the one outside. -/
theorem Leaves.outer {before later : Heap}
    (inner : Leaves before.size (xmlNewNode before none .empty).1 later)
    (present : dummy < before.size) : Leaves dummy before later := by
  have kept (n : NodeId) (known : n < before.size) : later.get n = before.get n :=
    (inner.same n (Nat.lt_succ_of_lt known) (Nat.ne_of_lt known)).trans
      (Arena.alloc_get_of_lt _ _ known)
  exact ⟨Nat.le_of_succ_le inner.grows, fun n known _ => kept n known,
    congrArg XmlNode.attributes (kept dummy present)⟩

theorem Prepared.later (prepared : Prepared heap memory dummy)
    (leaves : Leaves dummy memory.heap after.heap) : Prepared heap after dummy := by
  refine ⟨⟨Nat.le_trans prepared.extended.grows leaves.grows, fun n known => ?_⟩, prepared.new,
    prepared.frame.keep leaves.grows leaves.frame
      fun _ impossible => absurd impossible List.not_mem_nil⟩
  rw [leaves.same n (Nat.lt_of_lt_of_le known prepared.extended.grows)
    (Nat.ne_of_lt (Nat.lt_of_lt_of_le known prepared.new))]
  exact prepared.extended.same n known

variable [Double Num]

/-- One declaration: its value comes to stand behind the others. -/
theorem declareGlobal_run (prepared : Prepared heap memory dummy) {n : NodeId}
    (known : n < heap.size) {x : Bytes} {e : Expr} (declares : DeclaresGlobal pctx heap n (x, e))
    (fresh : x ∉ (memory.vars pctx.number).map Prod.fst) {children : Ptr}
    (ran : (declareGlobal call deep pctx doc dummy n children).run (alone start) memory =
      some ((), after)) :
    Leaves dummy memory.heap after.heap ∧ Exists fun value =>
      after.vars pctx.number = memory.vars pctx.number ++ [(x, value)] ∧
      Exists fun there => Exists fun last => heap.Extends there ∧
        xpathExecuteScalar (pctx.globalScope dummy (memory.vars pctx.number ++ [(x, .null)]))
          pctx.depth e doc there = some (value, last) := by
  rcases declares.attributes with ⟨attributes, listed, inside⟩
  have attribute_ (name : Bytes) := xmlGetAttr_extends prepared.extended known declares.element
    listed inside name
  rcases declares.selects with ⟨select, selected, compiled⟩
  unfold declareGlobal at ran
  rw [alone_first (alone_attributeOf ((attribute_ _).trans declares.named)),
    alone_first (alone_attributeOf ((attribute_ _).trans selected))] at ran
  dsimp only at ran
  rw [changeVariables, alone_first (alone_access _), createVariable_new fresh, evalGlobal,
    changeVariables, alone_first (alone_access _), pctx.withTable_vars, pctx.withTable_idem,
    storeVariable_last fresh, findExpr, alone_first (alone_reading compiled)] at ran
  by_cases empty : e = .null
  · rw [if_pos empty] at ran
    cases ran
    refine ⟨⟨Nat.le_refl _, fun _ _ _ => rfl, rfl⟩, .null, pctx.withTable_vars _ _, heap, heap,
      .refl _, ?_⟩
    rw [empty]
    rfl
  · rw [if_neg empty] at ran
    rcases ScopeCopies.run_first_eq_some ran with ⟨value, middle, evaluated, stored⟩
    have frame : Owns (pctx.withTable memory (memory.vars pctx.number ++ [(x, .null)])).heap dummy
        [] := prepared.frame
    have scope : pctx.scopeOf (pctx.withTable memory (memory.vars pctx.number ++ [(x, .null)]))
        dummy [] = pctx.globalScope dummy (memory.vars pctx.number ++ [(x, .null)]) := by
      unfold Transformation.scopeOf Transformation.globalScope
      rw [pctx.withTable_vars]
      rfl
    rw [alone_evaluating frame, scope] at evaluated
    rcases Option.map_eq_some_iff.mp evaluated with ⟨⟨found, last⟩, executed, same⟩
    rcases Prod.mk.inj same with ⟨rfl, rfl⟩
    rw [changeVariables, alone_access] at stored
    cases stored
    have current := setCurrent_allocates memory.heap (Eq.refl (some dummy)) doc
    have old : Old (some dummy) memory.heap := by
      rintro l ⟨⟩
      exact prepared.frame.present
    have outcome := xpathExecuteScalar_framed (pctx.globalScope dummy
      (memory.vars pctx.number ++ [(x, .null)])) pctx.depth e _ _ _ _ (old.grow current) executed
    have there : Prepared heap { memory with
        heap := memory.heap.modify dummy fun cell => { cell with parent := some doc } } dummy :=
      prepared.later (.of_allocates current prepared.frame.present)
    refine ⟨.of_allocates (current.trans old outcome.allocates) prepared.frame.present, found, ?_,
      _, last, there.extended, executed⟩
    rw [pctx.withTable_vars]
    change storeVariable ((pctx.withTable memory (memory.vars pctx.number ++ [(x, .null)])).vars
      pctx.number) x found = _
    rw [pctx.withTable_vars, storeVariable_last fresh]

theorem OneByOne.append {table : List (Bytes × RValue Num)} {first second : List (Bytes × Expr)}
    {values others : List (RValue Num)} (one : OneByOne pctx doc heap table first values)
    (two : OneByOne pctx doc heap (table ++ (first.map Prod.fst).zip values) second others) :
    OneByOne pctx doc heap table (first ++ second) (values ++ others) := by
  induction one with
  | nil =>
      rw [List.map_nil, List.zip_nil_left, List.append_nil] at two
      exact two
  | cons extended evaluated _ inductionHypothesis =>
      refine .cons extended evaluated (inductionHypothesis ?_)
      rw [List.map_cons, List.zip_cons_cons, List.append_cons] at two
      exact two

theorem OneByOne.length {table : List (Bytes × RValue Num)} {declared : List (Bytes × Expr)}
    {values : List (RValue Num)} (evaluated : OneByOne pctx doc heap table declared values) :
    values.length = declared.length := by
  induction evaluated with
  | nil => rfl
  | cons _ _ _ inductionHypothesis => rw [List.length_cons, List.length_cons, inductionHypothesis]

/-- One element, and those behind it. -/
theorem precompileVariables_first {fuel : Nat} {n : NodeId}
    (ran : (precompileVariables call deep pctx doc fuel dummy (some n)).run (alone start) memory =
      some ((), after)) :
    Exists fun less => Exists fun middle =>
      (precompileElement call deep pctx doc (fun children => do
          let inner ← newNode none .empty
          precompileVariables call deep pctx doc less inner children)
        dummy n (memory.heap.get n)).run (alone start) memory = some ((), middle) ∧
      (precompileVariables call deep pctx doc less dummy (memory.heap.get n).next).run
        (alone start) middle = some ((), after) := by
  cases fuel with
  | zero =>
      rw [precompileVariables, stuck, alone_access] at ran
      cases ran
  | succ fuel =>
      rw [precompileVariables, alone_first (alone_nodeOf n)] at ran
      rcases ScopeCopies.run_first_eq_some ran with ⟨_, middle, here, later⟩
      exact ⟨fuel, middle, here, later⟩

/-- `precompile_variables` evaluates the declarations in the order of the
document. -/
theorem precompileVariables_run {nodes : List NodeId} {stylesheet : Ptr}
    (globals : Globals heap stylesheet nodes) {declared : List (Bytes × Expr)}
    (declares : List.Forall₂ (DeclaresGlobal pctx heap) nodes declared) {fuel : Nat}
    (prepared : Prepared heap memory dummy)
    (distinct : ((memory.vars pctx.number).map Prod.fst ++ declared.map Prod.fst).Nodup)
    (ran : (precompileVariables call deep pctx doc fuel dummy stylesheet).run (alone start) memory =
      some ((), after)) :
    Leaves dummy memory.heap after.heap ∧ Exists fun values =>
      after.vars pctx.number =
        memory.vars pctx.number ++ (declared.map Prod.fst).zip values ∧
      OneByOne pctx doc heap (memory.vars pctx.number) declared values := by
  induction globals generalizing declared memory after dummy fuel with
  | done =>
      cases declares
      have nothing : (precompileVariables call deep pctx doc fuel dummy none).run (alone start)
          memory = some ((), memory) := by
        cases fuel <;> rfl
      cases nothing.symm.trans ran
      exact ⟨⟨Nat.le_refl _, fun _ _ _ => rfl, rfl⟩, [], (List.append_nil _).symm, .nil⟩
  | @variable_ n rest known name behind inductionHypothesis =>
      rcases precompileVariables_first ran with ⟨less, middle, here, later⟩
      rw [prepared.extended.same n known] at here later
      rw [precompileElement, if_pos name] at here
      cases declares with
      | @cons _ d _ ds declaresHere others =>
          have fresh : d.1 ∉ (memory.vars pctx.number).map Prod.fst := fun member =>
            (List.nodup_append.mp distinct).2.2 d.1 member d.1 List.mem_cons_self rfl
          rcases declareGlobal_run prepared known declaresHere fresh here with
            ⟨leaves, value, table, there, last, extended, evaluated⟩
          have distinctLater : ((middle.vars pctx.number).map Prod.fst ++ ds.map Prod.fst).Nodup := by
            rw [table, List.map_append, List.append_assoc]
            exact distinct
          rcases inductionHypothesis others (prepared.later leaves) distinctLater later with
            ⟨done, values, tableLater, evaluatedLater⟩
          rw [table] at tableLater evaluatedLater
          refine ⟨leaves.trans done, value :: values, ?_, .cons extended evaluated evaluatedLater⟩
          rw [tableLater, List.map_cons, List.zip_cons_cons, List.append_assoc]
          rfl
  | @inside n below rest known other opens children behind below_ behind_ =>
      rcases precompileVariables_first ran with ⟨less, middle, here, later⟩
      rw [prepared.extended.same n known] at here later
      rw [precompileElement, if_neg other, if_pos opens] at here
      rcases ScopeCopies.run_first_eq_some here with ⟨inner, made, allocated, within⟩
      cases allocated
      have firstDeclares := List.forall₂_take below.length declares
      have secondDeclares := List.forall₂_drop below.length declares
      rw [List.take_left] at firstDeclares
      rw [List.drop_left] at secondDeclares
      rw [← List.take_append_drop below.length declared] at distinct ⊢
      generalize declared.take below.length = first at distinct firstDeclares ⊢
      generalize declared.drop below.length = second at distinct secondDeclares ⊢
      rw [List.map_append, ← List.append_assoc] at distinct
      rcases below_ firstDeclares (Prepared.inner prepared.extended) (List.nodup_append.mp distinct).1
        within with ⟨leavesInner, values, table, evaluated⟩
      have outer := leavesInner.outer prepared.frame.present
      change middle.vars pctx.number = memory.vars pctx.number ++ _ at table
      have distinctLater : ((middle.vars pctx.number).map Prod.fst ++ second.map Prod.fst).Nodup := by
        rw [table, List.map_append, map_zip_names evaluated.length]
        exact distinct
      rcases behind_ secondDeclares (prepared.later outer) distinctLater later with
        ⟨done, others, tableLater, evaluatedLater⟩
      rw [table] at tableLater evaluatedLater
      refine ⟨outer.trans done, values ++ others, ?_, evaluated.append evaluatedLater⟩
      rw [tableLater, List.map_append, List.append_assoc, List.zip_append]
      rw [List.length_map, evaluated.length]
  | @skipped n rest known other shut behind inductionHypothesis =>
      rcases precompileVariables_first ran with ⟨less, middle, here, later⟩
      rw [prepared.extended.same n known] at here later
      rw [precompileElement, if_neg other, if_neg shut] at here
      cases here
      exact inductionHypothesis declares prepared distinct later

/-- No expression refers to a variable that is declared with it or behind it. -/
structure DeclaredBeforeUse (pctx : Transformation Num) (declared : List (Bytes × Expr)) :
    Prop where
  behind : declared.Pairwise fun earlier later => ¬ Mentions pctx.env (some later.1) earlier.2
  itself : ∀ d ∈ declared, ¬ Mentions pctx.env (some d.1) d.2

/-- What such expressions read is not changed any more. -/
theorem OneByOne.settled {table : List (Bytes × RValue Num)} {declared : List (Bytes × Expr)}
    {values : List (RValue Num)} (evaluated : OneByOne pctx doc heap table declared values)
    (order : DeclaredBeforeUse pctx declared) :
    ∀ entry ∈ declared.zip values, Exists fun dummy => Exists fun there => Exists fun last =>
      heap.Extends there ∧ xpathExecuteScalar
        (pctx.globalScope dummy (table ++ (declared.map Prod.fst).zip values)) pctx.depth
          entry.1.2 doc there = some (entry.2, last) := by
  induction evaluated with
  | nil => exact fun _ impossible => absurd impossible List.not_mem_nil
  | @cons table x e value rest values dummy there last extended evaluated later
      inductionHypothesis =>
      rcases List.pairwise_cons.mp order.behind with ⟨here, others⟩
      intro entry member
      rcases List.mem_cons.mp member with same | member
      · rw [same]
        refine ⟨dummy, there, last, extended, ?_⟩
        have agree : ∀ y, Mentions pctx.env y e →
            (pctx.globalScope dummy (table ++
              (((x, e) :: rest).map Prod.fst).zip (value :: values))).variableValue y =
                (pctx.globalScope dummy (table ++ [(x, .null)])).variableValue y := by
          intro y mentions
          have unlike (name : Bytes) (among : name = x ∨ name ∈ rest.map Prod.fst) :
              y ≠ some name := by
            rintro rfl
            rcases among with rfl | among
            · exact order.itself _ List.mem_cons_self mentions
            · rcases List.mem_map.mp among with ⟨d, inside, rfl⟩
              exact here d inside mentions
          refine globalScope_append pctx dummy (fun var member => ?_) fun var member => ?_
          · exact unlike var.1 (List.mem_cons.mp (List.of_mem_zip member).1)
          · rw [List.mem_singleton.mp member]
            exact unlike x (.inl rfl)
        rw [xpathExecuteScalar_globalScope _ agree]
        exact evaluated
      · rw [List.map_cons, List.zip_cons_cons, List.append_cons]
        exact inductionHypothesis
          ⟨others, fun d inside => order.itself d (List.mem_cons_of_mem _ inside)⟩ entry member

/-- Where every variable has a `select` and is declared before it is used, the
values that `precompile_variables` stores are those of the expressions with all
variables at their final values. -/
theorem globals_declared_before_use {nodes : List NodeId} {stylesheet : Ptr} {fuel : Nat}
    (globals : Globals memory.heap stylesheet nodes) {declared : List (Bytes × Expr)}
    (declares : List.Forall₂ (DeclaresGlobal pctx memory.heap) nodes declared)
    (distinct : ((memory.vars pctx.number).map Prod.fst ++ declared.map Prod.fst).Nodup)
    (order : DeclaredBeforeUse pctx declared)
    (ran : (newNode none .empty >>= fun dummy =>
      precompileVariables call deep pctx doc fuel dummy stylesheet).run (alone start) memory =
        some ((), after)) :
    Exists fun values => values.length = declared.length ∧
      after.vars pctx.number = memory.vars pctx.number ++ (declared.map Prod.fst).zip values ∧
      ∀ entry ∈ declared.zip values, Exists fun dummy => Exists fun there => Exists fun last =>
        memory.heap.Extends there ∧
          xpathExecuteScalar (pctx.globalScope dummy (after.vars pctx.number)) pctx.depth
            entry.1.2 doc there = some (entry.2, last) := by
  rcases ScopeCopies.run_first_eq_some ran with ⟨dummy, made, allocated, ran⟩
  cases allocated
  rcases precompileVariables_run globals declares (Prepared.inner (.refl _)) distinct ran with
    ⟨_, values, table, evaluated⟩
  refine ⟨values, evaluated.length, table, ?_⟩
  rw [table]
  exact evaluated.settled order

end Runs

/-- `<xsl:variable name="a" select="7"/><xsl:variable name="b" select="$a"/>` -/
def twoGlobals : Memory Int where
  heap := .ofList [
    { type := .element, name := some xslVar, attributes := some 2, next := some 1 },
    { type := .element, name := some xslVar, attributes := some 4 },
    { type := .attribute, name := some xslAName, content := some (lit "a"), next := some 3 },
    { type := .attribute, name := some xslASelect, content := some (lit "7") },
    { type := .attribute, name := some xslAName, content := some (lit "b"), next := some 5 },
    { type := .attribute, name := some xslASelect, content := some (lit "$a") }]
  extra := fun _ => .null
  vars := fun _ => []
  rawout := fun _ => 0

def twoExpressions : List (Bytes × Expr) :=
  [(lit "a", .leaf { type := .int, integer := 7 }),
    (lit "b", .leaf { type := .var, name := some (lit "a") })]

theorem twoGlobals_declared : List.Forall₂ (DeclaresGlobal emptyTransformation twoGlobals.heap)
    [0, 1] twoExpressions := by
  have size : twoGlobals.heap.size = 6 := rfl
  refine .cons ⟨by decide, ⟨[2, 3], rfl, ?_⟩, rfl, lit "7", rfl, rfl⟩
    (.cons ⟨by decide, ⟨[4, 5], rfl, ?_⟩, rfl, lit "$a", rfl, rfl⟩ .nil)
  · rw [size]
    decide
  · rw [size]
    decide

theorem twoGlobals_order : DeclaredBeforeUse emptyTransformation twoExpressions := by
  have constant (y : Option Bytes) : ¬ Mentions emptyTransformation.env y
      (.leaf { type := .int, integer := 7 }) := by
    intro mentions
    cases mentions with
    | here type => cases type
    | child below => cases below
    | behind later => cases later
    | key type => cases type
  refine ⟨.cons (fun later _ => constant _) (.cons (fun _ impossible => ?_) .nil), ?_⟩
  · cases impossible
  · intro d member
    rcases List.mem_pair.mp member with rfl | rfl
    · exact constant _
    · intro mentions
      cases mentions with
      | here _ name => exact absurd name (by decide)
      | child below => cases below
      | behind later => cases later
      | key type => cases type

theorem globals_declared_before_use_two : Exists fun after : Memory Int => Exists fun values =>
    values.length = 2 ∧ after.vars 0 = [lit "a", lit "b"].zip values ∧
      ∀ entry ∈ twoExpressions.zip values, Exists fun dummy => Exists fun there =>
        Exists fun last => twoGlobals.heap.Extends there ∧
          xpathExecuteScalar (emptyTransformation.globalScope dummy (after.vars 0)) 1
            entry.1.2 0 there = some (entry.2, last) := by
  have done : ((newNode none .empty >>= fun dummy =>
      precompileVariables ScopeCopies.leaveContent 0 emptyTransformation 0 3 dummy (some 0)).run
        (alone fun _ _ => none) twoGlobals).isSome := by
    decide +kernel
  rcases Option.isSome_iff_exists.mp done with ⟨⟨_, after⟩, ran⟩
  have size : twoGlobals.heap.size = 6 := rfl
  have globals : Globals twoGlobals.heap (some 0) [0, 1] :=
    .variable_ (by rw [size]; decide) rfl (.variable_ (by rw [size]; decide) rfl .done)
  exact ⟨after, globals_declared_before_use globals twoGlobals_declared (by decide)
    twoGlobals_order ran⟩

end TurboXSL
