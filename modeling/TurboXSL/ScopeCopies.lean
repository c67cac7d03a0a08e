import Mathlib.Logic.Relation
import TurboXSL.LocalVariables

namespace TurboXSL
namespace ScopeCopies

open Library Program

/-!
# Copies of scopes

The variables of a frame are a list that is searched from the front.
`do_local_var` gives a new value to the first variable of a name, or puts a new
one in front; `add_local_var` always puts one in front, so that a name may be
listed twice.  `copy_variables` walks over the list and puts every copy in
front of those it has made: the copy is the list the other way round, in which
the oldest variable of a name comes first.
-/

variable {Num : Type}

/-! ## Values -/

/-- What `xpath_nodeset_copy` takes from a node. -/
def copiedPart (cell : XmlNode) : XmlNode :=
  { type := cell.type
    name := cell.name
    content := cell.content
    parent := cell.parent
    children := cell.children
    attributes := cell.attributes
    original := cell.original }

/-- What the copy of a node-set is made of. -/
def copiedParts (heap : Heap) (nodeset : Ptr) : Option (List XmlNode) :=
  (siblings heap nodeset).map (List.map fun n => copiedPart (heap.get n))

/-- The values have the same copies. -/
def Alike (heap : Heap) : RValue Num → RValue Num → Prop
  | .nodeset first, .nodeset second => copiedParts heap first = copiedParts heap second
  | first, second => first = second

section Copies

variable {heap : Heap} {prev : Ptr}

/-- The node that a copy is, before anything is behind it. -/
def copyOf (heap : Heap) (prev : Ptr) (src : NodeId) (position : Nat) : XmlNode :=
  { copiedPart (heap.get src) with prev := prev, uid := some heap.size, position := position }

/-- The memory with one more copy, behind `prev`. -/
def withCopy (heap : Heap) (prev : Ptr) (src : NodeId) (position : Nat) : Heap :=
  setNext (heap.alloc (copyOf heap prev src position)) prev (some heap.size)

theorem nodesetCopies_cons (src : NodeId) (position : Nat) (rest : List (NodeId × Nat)) :
    nodesetCopies heap prev ((src, position) :: rest) =
      ((nodesetCopies (withCopy heap prev src position) (some heap.size) rest).1,
        heap.size :: (nodesetCopies (withCopy heap prev src position) (some heap.size) rest).2) :=
  rfl

theorem withCopy_size (src : NodeId) (position : Nat) :
    (withCopy heap prev src position).size = heap.size + 1 := setNext_size _ _ _

/-- A node is as before, but for its link. -/
def SameButLink (cell other : XmlNode) : Prop := { cell with next := none } = { other with next := none }

theorem SameButLink.part {cell other : XmlNode} (same : SameButLink cell other) :
    copiedPart cell = copiedPart other := by
  have parts := congrArg copiedPart same
  exact parts

theorem SameButLink.trans {first second third : XmlNode} (left : SameButLink first second)
    (right : SameButLink second third) : SameButLink first third := Eq.trans left right

theorem setNext_same (heap : Heap) (node next : Ptr) (n : NodeId) :
    SameButLink ((setNext heap node next).get n) (heap.get n) := by
  cases node with
  | none => rfl
  | some m =>
      unfold setNext
      by_cases at_ : n = m
      · rw [at_, Arena.modify_get_same]
        rfl
      · rw [Arena.modify_get_of_ne _ _ at_]
        rfl

theorem withCopy_old (src : NodeId) (position : Nat) {n : NodeId} (old : n < heap.size) :
    SameButLink ((withCopy heap prev src position).get n) (heap.get n) := by
  have same := setNext_same (heap.alloc (copyOf heap prev src position)) prev (some heap.size) n
  rwa [Arena.alloc_get_of_lt _ _ old] at same

theorem withCopy_new (heap : Heap) (prev : Ptr) (src : NodeId) (position : Nat) :
    SameButLink ((withCopy heap prev src position).get heap.size) (copyOf heap prev src position) := by
  have same := setNext_same (heap.alloc (copyOf heap prev src position)) prev (some heap.size)
    heap.size
  rwa [Arena.alloc_get_same] at same

/-- Copying only links nodes that were there. -/
theorem nodesetCopies_old (sources : List (NodeId × Nat)) (heap : Heap) (prev : Ptr) {n : NodeId}
    (old : n < heap.size) : SameButLink ((nodesetCopies heap prev sources).1.get n) (heap.get n) := by
  induction sources generalizing heap prev with
  | nil => rfl
  | cons source rest inductionHypothesis =>
      rcases source with ⟨src, position⟩
      rw [nodesetCopies_cons]
      refine (inductionHypothesis _ _ ?_).trans (withCopy_old src position old)
      rw [withCopy_size]
      exact Nat.lt_succ_of_lt old

/-- Lists of nodes that were there have the same copies if and only if their
nodes agree in what is copied; by induction on the lists side by side. -/
theorem nodesetCopies_eq_iff {before : Heap} (first second : List NodeId) (heap : Heap)
    (prev : Ptr) (position : Nat) (grown : before.size ≤ heap.size)
    (same : ∀ n < before.size, copiedPart (heap.get n) = copiedPart (before.get n))
    (here : ∀ n ∈ first, n < before.size) (there : ∀ n ∈ second, n < before.size) :
    nodesetCopies heap prev (first.zipIdx position) =
        nodesetCopies heap prev (second.zipIdx position) ↔
      first.map (fun n => copiedPart (before.get n)) =
        second.map fun n => copiedPart (before.get n) := by
  induction first generalizing second heap prev position with
  | nil =>
      cases second with
      | nil => exact ⟨fun _ => rfl, fun _ => rfl⟩
      | cons n second =>
          rw [List.zipIdx_cons, nodesetCopies_cons]
          exact ⟨fun equal => (nomatch congrArg Prod.snd equal), nofun⟩
  | cons m first inductionHypothesis =>
      cases second with
      | nil =>
          rw [List.zipIdx_cons, nodesetCopies_cons]
          exact ⟨fun equal => (nomatch congrArg Prod.snd equal), nofun⟩
      | cons n second =>
          have head : copiedPart (before.get m) = copiedPart (before.get n) →
              withCopy heap prev m position = withCopy heap prev n position := by
            intro equal
            unfold withCopy copyOf
            rw [same m (here m List.mem_cons_self), same n (there n List.mem_cons_self), equal]
          have rest := inductionHypothesis second (withCopy heap prev n position) (some heap.size)
            (position + 1) (by rw [withCopy_size]; exact Nat.le_succ_of_le grown)
            (fun k old => ((withCopy_old n position (Nat.lt_of_lt_of_le old grown)).part).trans
              (same k old))
            (fun k member => here k (List.mem_cons_of_mem m member))
            (fun k member => there k (List.mem_cons_of_mem n member))
          rw [List.zipIdx_cons, List.zipIdx_cons, nodesetCopies_cons, nodesetCopies_cons,
            List.map_cons, List.map_cons, List.cons.injEq, Prod.mk.injEq, List.cons.injEq]
          constructor
          · rintro ⟨heaps, -, copies⟩
            have equal : copiedPart (before.get m) = copiedPart (before.get n) := by
              rw [← same m (here m List.mem_cons_self), ← same n (there n List.mem_cons_self)]
              have left := (nodesetCopies_old (first.zipIdx (position + 1)) _ (some heap.size)
                (by rw [withCopy_size]; exact Nat.lt_succ_self _)).trans
                (withCopy_new heap prev m position)
              have right := (nodesetCopies_old (second.zipIdx (position + 1)) _ (some heap.size)
                (by rw [withCopy_size]; exact Nat.lt_succ_self _)).trans
                (withCopy_new heap prev n position)
              rw [heaps] at left
              exact left.part.symm.trans right.part
            refine ⟨equal, rest.mp (Prod.ext ?_ ?_)⟩
            · rw [← heaps, head equal]
            · rw [← copies, head equal]
          · rintro ⟨equal, others⟩
            have copied := rest.mpr others
            rw [head equal]
            exact ⟨congrArg Prod.fst copied, rfl, congrArg Prod.snd copied⟩

theorem nodesetCopies_shape (sources : List (NodeId × Nat)) (heap : Heap) (prev : Ptr) :
    (nodesetCopies heap prev sources).1.size = heap.size + sources.length ∧
      (nodesetCopies heap prev sources).2 = List.range' heap.size sources.length := by
  induction sources generalizing heap prev with
  | nil => exact ⟨rfl, rfl⟩
  | cons source rest inductionHypothesis =>
      rcases source with ⟨src, position⟩
      have shape := inductionHypothesis (withCopy heap prev src position) (some heap.size)
      rw [withCopy_size] at shape
      rw [nodesetCopies_cons, List.length_cons, List.range'_succ]
      refine ⟨?_, congrArg (List.cons heap.size) shape.2⟩
      rw [shape.1]
      omega

/-- A node of a list. -/
inductive Listed (heap : Heap) : Ptr → NodeId → Prop where
  | here (n : NodeId) : Listed heap (some n) n
  | behind {first n : NodeId} (later : Listed heap (heap.get first).next n) :
      Listed heap (some first) n

theorem listed_of_siblings {p : Ptr} {nodes : List NodeId} (found : siblings heap p = some nodes) :
    ∀ n ∈ nodes, Listed heap p n := by
  have chain := (follow_eq_some_iff.mp found).1
  clear found
  induction chain with
  | nil => exact nofun
  | cons first rest _ inductionHypothesis =>
      intro n member
      rcases List.mem_cons.mp member with rfl | member
      · exact .here n
      · exact .behind (inductionHypothesis n member)

/-- The nodes of a value are in memory, and `vars` is none of them. -/
def Inside (heap : Heap) (vars : NodeId) (value : RValue Num) : Prop :=
  ∀ nodeset, value = .nodeset nodeset → ∀ n, Listed heap nodeset n → n < heap.size ∧ n ≠ vars

theorem xpathNodesetCopy_eq_iff {p q : Ptr} (first : ∀ n, Listed heap p n → n < heap.size)
    (second : ∀ n, Listed heap q n → n < heap.size) :
    xpathNodesetCopy heap p = xpathNodesetCopy heap q ↔ copiedParts heap p = copiedParts heap q := by
  unfold xpathNodesetCopy copiedParts
  cases left : siblings heap p with
  | none =>
      cases right : siblings heap q with
      | none => exact ⟨fun _ => rfl, fun _ => rfl⟩
      | some others => exact ⟨nofun, nofun⟩
  | some nodes =>
      cases right : siblings heap q with
      | none => exact ⟨nofun, nofun⟩
      | some others =>
          have equal := nodesetCopies_eq_iff nodes others heap none 1 (Nat.le_refl _)
            (fun _ _ => rfl) (fun n member => first n (listed_of_siblings left n member))
            (fun n member => second n (listed_of_siblings right n member))
          rw [Option.map_some, Option.map_some, Option.some.injEq, ← equal]
          dsimp only [Option.bind_eq_bind, Option.bind_some]
          rw [Option.some.injEq, Prod.mk.injEq]
          constructor
          · rintro ⟨heaps, -⟩
            have shapeOfNodes := nodesetCopies_shape (nodes.zipIdx 1) heap none
            have shapeOfOthers := nodesetCopies_shape (others.zipIdx 1) heap none
            have sizes := congrArg Arena.size heaps
            rw [numbered, numbered, shapeOfNodes.1, shapeOfOthers.1] at sizes
            refine Prod.ext heaps ?_
            rw [shapeOfNodes.2, shapeOfOthers.2, Nat.add_left_cancel sizes]
          · intro copies
            rw [numbered, numbered, copies]
            exact ⟨rfl, rfl⟩

theorem rvalCopy_nodeset (nodeset : Ptr) :
    rvalCopy heap (.nodeset nodeset : RValue Num) =
      (xpathNodesetCopy heap nodeset).map fun made => (.nodeset made.2, made.1) := by
  rw [rvalCopy]
  cases xpathNodesetCopy heap nodeset <;> rfl

theorem rvalCopy_nodeset_ne (nodeset : Ptr) {value : RValue Num}
    (plain : ∀ nodeset, value ≠ .nodeset nodeset) :
    rvalCopy heap (.nodeset nodeset) ≠ some (value, heap) := by
  intro equal
  rw [rvalCopy_nodeset] at equal
  rcases Option.map_eq_some_iff.mp equal with ⟨made, -, same⟩
  exact plain made.2 (Prod.mk.inj same).1.symm

/-- `rval_copy` makes the same of values that are alike. -/
theorem rvalCopy_eq_iff {vars : NodeId} {first second : RValue Num} (left : Inside heap vars first)
    (right : Inside heap vars second) :
    rvalCopy heap first = rvalCopy heap second ↔ Alike heap first second := by
  cases first with
  | nodeset p =>
      cases second with
      | nodeset q =>
          rw [rvalCopy_nodeset, rvalCopy_nodeset]
          refine Iff.trans ⟨fun equal => ?_, congrArg _⟩
            (xpathNodesetCopy_eq_iff (fun n listed => (left p rfl n listed).1)
              fun n listed => (right q rfl n listed).1)
          refine Option.map_injective ?_ equal
          rintro ⟨heap, copy⟩ ⟨other, copy'⟩ same
          cases same
          rfl
      | null | bool | int | number | string =>
          exact ⟨fun equal => absurd equal (rvalCopy_nodeset_ne p nofun), nofun⟩
  | null | bool | int | number | string =>
      cases second with
      | nodeset q =>
          exact ⟨fun equal => absurd equal.symm (rvalCopy_nodeset_ne q nofun), nofun⟩
      | null | bool | int | number | string =>
          exact ⟨fun equal => (Prod.mk.inj (Option.some.inj equal)).1, fun same => congrArg _ same⟩

end Copies

/-! ## Instructions that bind a variable -/

section Steps

variable {memory placed after : Memory Num} {vars binding : NodeId}
  {attributes now : List NodeId}

theorem listed_earlier {heap later : Heap} {p : Ptr} {n : NodeId}
    (links : ∀ n, Listed heap p n → (later.get n).next = (heap.get n).next)
    (listed : Listed later p n) : Listed heap p n := by
  induction listed with
  | here n => exact .here n
  | @behind first _ _ inductionHypothesis =>
      rw [links first (.here first)] at inductionHypothesis
      exact .behind (inductionHypothesis fun m listed => links m (.behind listed))

theorem Inside.keep {heap later : Heap} {value : RValue Num} (inside : Inside heap vars value)
    (grows : heap.size ≤ later.size)
    (links : ∀ nodeset, value = .nodeset nodeset → ∀ n, Listed heap nodeset n →
      (later.get n).next = (heap.get n).next) : Inside later vars value := by
  rintro nodeset rfl n listed
  have found := inside nodeset rfl n (listed_earlier (links nodeset rfl) listed)
  exact ⟨Nat.lt_of_lt_of_le found.1 grows, found.2⟩

/-- The nodes of a value that was just made are new. -/
theorem Inside.of_outcome {heap later : Heap} {value : RValue Num} (present : vars < heap.size)
    (outcome : Outcome (some vars) heap value later) : Inside later vars value := by
  rintro nodeset rfl n listed
  have fresh := outcome.fresh nodeset rfl
  have new : heap.size ≤ n ∧ n < later.size := by
    have closed := outcome.allocates.closed
    clear outcome
    induction listed with
    | here n => exact fresh n rfl
    | @behind first _ _ inductionHypothesis =>
        have new := fresh first rfl
        exact inductionHypothesis fun next link => closed first new.1 new.2 next link
  exact ⟨new.2, fun same => absurd present (Nat.not_lt.mpr (same ▸ new.1))⟩

/-- The node of a variable is in its place. -/
structure Prepared (memory placed : Memory Num) (vars : NodeId) (attributes now : List NodeId)
    (binding : NodeId) : Prop where
  frame : Owns placed.heap vars now
  member : binding ∈ now
  added : ∀ attr ∈ now, attr ∈ attributes ∨ attr = binding ∧ memory.heap.size ≤ attr
  grows : memory.heap.size ≤ placed.heap.size
  nodes : ∀ n < memory.heap.size, n ≠ vars → n ∉ attributes →
    placed.heap.get n = memory.heap.get n
  links : ∀ n < memory.heap.size, n ≠ vars →
    (placed.heap.get n).next = (memory.heap.get n).next
  extra : placed.extra = memory.extra
  globals : placed.vars = memory.vars

/-- What a binding does: the frame has the nodes it had and new ones, and what
is not part of it stays as it is. -/
structure Bound (memory after : Memory Num) (vars : NodeId) (attributes now : List NodeId) :
    Prop where
  frame : Owns after.heap vars now
  added : ∀ attr ∈ now, attr ∈ attributes ∨ memory.heap.size ≤ attr
  grows : memory.heap.size ≤ after.heap.size
  nodes : ∀ n < memory.heap.size, n ≠ vars → n ∉ attributes →
    after.heap.get n = memory.heap.get n
  links : ∀ n < memory.heap.size, n ≠ vars →
    (after.heap.get n).next = (memory.heap.get n).next
  values : ∀ attr ∈ now, attr ∈ attributes ∧ after.extra attr = memory.extra attr ∨
    Inside after.heap vars (after.extra attr)
  others : ∀ n, n ∉ now → after.extra n = memory.extra n
  globals : after.vars = memory.vars

/-- The variable gets a value that was just made. -/
theorem Prepared.assign (prepared : Prepared memory placed vars attributes now binding)
    {heap : Heap} {value : RValue Num} (outcome : Outcome (some vars) placed.heap value heap) :
    Bound memory ({ placed with heap := heap }.setExtra binding value) vars attributes now where
  frame := prepared.frame.allocates outcome.allocates
  added := fun attr member => (prepared.added attr member).imp_right And.right
  grows := Nat.le_trans prepared.grows outcome.allocates.grows
  nodes := by
    intro n old other outside
    rw [← prepared.nodes n old other outside]
    exact outcome.allocates.same n (Nat.lt_of_lt_of_le old prepared.grows) fun same =>
      other (Option.some.inj same).symm
  links := by
    intro n old other
    rw [← prepared.links n old other]
    exact congrArg XmlNode.next (outcome.allocates.same n
      (Nat.lt_of_lt_of_le old prepared.grows) fun same => other (Option.some.inj same).symm)
  values := by
    intro attr member
    change _ ∧ (if attr = binding then value else placed.extra attr) = _ ∨
      Inside heap vars (if attr = binding then value else placed.extra attr)
    by_cases at_ : attr = binding
    · rw [if_pos at_]
      exact .inr (.of_outcome prepared.frame.present outcome)
    · rw [if_neg at_, prepared.extra]
      exact .inl ⟨(prepared.added attr member).resolve_right fun new => at_ new.1, rfl⟩
  others := by
    intro n outside
    change (if n = binding then value else placed.extra n) = _
    have other : n ≠ binding := by
      rintro rfl
      exact outside prepared.member
    rw [if_neg other, prepared.extra]
  globals := prepared.globals

theorem prepared_found (frame : Owns memory.heap vars attributes) (member : binding ∈ attributes) :
    Prepared memory { memory with heap := memory.heap.modify binding fun cell =>
      { cell with content := none } } vars attributes attributes binding := by
  have links : ∀ n, ((memory.heap.modify binding fun cell => { cell with content := none }).get
      n).next = (memory.heap.get n).next := by
    intro n
    by_cases at_ : n = binding
    · rw [at_, Arena.modify_get_same]
    · rw [Arena.modify_get_of_ne _ _ at_]
  refine ⟨frame.keep (Nat.le_refl _) ?_ fun n _ => links n, member, fun _ member => .inl member,
    Nat.le_refl _, fun n _ _ outside => ?_, fun n _ _ => links n, rfl, rfl⟩
  · rw [Arena.modify_get_of_ne _ _ (frame.ne member).symm]
  · have other : n ≠ binding := by
      rintro rfl
      exact outside member
    rw [Arena.modify_get_of_ne _ _ other]

theorem prepared_push (frame : Owns memory.heap vars attributes) (x : Option Bytes) :
    Prepared memory { memory with heap := pushVariable memory.heap vars x } vars attributes
      (memory.heap.size :: attributes) memory.heap.size := by
  refine ⟨frame.push x, List.mem_cons_self, fun attr member => ?_, Nat.le_succ _,
    fun n old other _ => pushVariable_old old other x, fun n old other => ?_, rfl, rfl⟩
  · rcases List.mem_cons.mp member with rfl | member
    · exact .inr ⟨rfl, Nat.le_refl _⟩
    · exact .inl member
  · exact congrArg XmlNode.next (pushVariable_old old other x)

/-- The frame and the nodes of its values are in memory. -/
structure Held (memory : Memory Num) (vars : NodeId) (attributes : List NodeId) : Prop where
  frame : Owns memory.heap vars attributes
  values : ∀ attr ∈ attributes, Inside memory.heap vars (memory.extra attr)

theorem Held.bound (held : Held memory vars attributes)
    (bound : Bound memory after vars attributes now) : Held after vars now where
  frame := bound.frame
  values := by
    intro attr member
    rcases bound.values attr member with ⟨old, same⟩ | inside
    · rw [same]
      have inside := held.values attr old
      refine inside.keep bound.grows fun nodeset equal n listed => ?_
      exact bound.links n (inside nodeset equal n listed).1 (inside nodeset equal n listed).2
    · exact inside

variable {start : TemplateTask Num → Memory Num → Option (Memory Num)}

theorem localVariable_prepared (frame : Owns memory.heap vars attributes) {x : Option Bytes}
    (ran : (localVariable vars x).run (alone start) memory = some (binding, placed)) :
    Exists fun now => Prepared memory placed vars attributes now binding := by
  rw [localVariable_run start frame] at ran
  cases found : attributes.find? fun tmp => decide (xmlsEquals x (memory.heap.get tmp).name) with
  | some tmp =>
      rw [found] at ran
      cases ran
      exact ⟨_, prepared_found frame (List.mem_of_find?_eq_some found)⟩
  | none =>
      rw [found] at ran
      cases ran
      exact ⟨_, prepared_push frame x⟩

/-- Nothing is bound. -/
theorem Bound.refl (frame : Owns memory.heap vars attributes) :
    Bound memory memory vars attributes attributes where
  frame := frame
  added := fun _ member => .inl member
  grows := Nat.le_refl _
  nodes := fun _ _ _ _ => rfl
  links := fun _ _ _ => rfl
  values := fun _ member => .inl ⟨member, rfl⟩
  others := fun _ _ => rfl
  globals := rfl

theorem run_first_eq_some {Value Other : Type} {first : Thread Num Value}
    {next : Value → Thread Num Other} {other : Other}
    (ran : (first >>= next).run (alone start) memory = some (other, after)) :
    Exists fun value => Exists fun middle => first.run (alone start) memory = some (value, middle) ∧
      (next value).run (alone start) middle = some (other, after) := by
  rw [run_bind] at ran
  rcases Option.bind_eq_some_iff.mp ran with ⟨⟨value, middle⟩, one, two⟩
  exact ⟨value, middle, one, two⟩

theorem reading_memory {Value : Type} {read : Heap → Option Value} {value : Value}
    (ran : (reading read).run (alone start) memory = some (value, after)) : after = memory := by
  rw [reading, alone_access] at ran
  rcases Option.map_eq_some_iff.mp ran with ⟨found, -, same⟩
  exact (Prod.mk.inj same).2.symm

/-- The instructions in the content of a variable are steps of their own. -/
def leaveContent : Caller Num := fun _ _ => pure ()

theorem alone_treeValue (pctx : Transformation Num) (doc : NodeId) (content : Ptr) :
    (treeValue leaveContent pctx vars doc content binding).run (alone start) memory =
      some ((), { memory with heap := (xmlNewNode memory.heap none .empty).1 }.setExtra binding
        (.nodeset (some memory.heap.size))) := rfl

theorem addLocalVar_bound (frame : Owns memory.heap vars attributes) {name : Option Bytes}
    {params : Ptr} (ran : (addLocalVar vars name params).run (alone start) memory =
      some ((), after)) : Exists fun now => Bound memory after vars attributes now := by
  unfold addLocalVar at ran
  rcases run_first_eq_some ran with ⟨found, middle, read, ran⟩
  cases reading_memory read
  cases found with
  | none =>
      cases ran
      exact ⟨_, .refl frame⟩
  | some param =>
      have copied : (copyExtra param memory.heap.size).run (alone start)
          { memory with heap := pushVariable memory.heap vars name } = some ((), after) := ran
      rw [copyExtra, alone_access] at copied
      rcases Option.bind_eq_some_iff.mp copied with ⟨⟨value, heap⟩, made, done⟩
      cases done
      exact ⟨_, (prepared_push frame name).assign (rvalCopy_outcome made)⟩

variable [Double Num] {pctx : Transformation Num}

theorem evalNode_bound (prepared : Prepared memory placed vars attributes now binding)
    {current : NodeId} {select : Bytes}
    (ran : (evalNode pctx vars current (some select) binding).run (alone start) placed =
      some ((), after)) : Bound memory after vars attributes now := by
  have old : Old (some vars) placed.heap := by
    rintro l ⟨⟩
    exact prepared.frame.present
  cases compiled : pctx.env.findExpr select with
  | none =>
      unfold evalNode at ran
      rcases run_first_eq_some ran with ⟨_, middle, -, ran⟩
      rcases run_first_eq_some ran with ⟨e, later, found, -⟩
      have missing : pctx.findExpr (some select) = none := compiled
      rw [findExpr, reading, alone_access, missing] at found
      cases found
  | some e =>
      rw [alone_evalNode compiled prepared.frame] at ran
      split at ran
      next =>
          cases ran
          exact prepared.assign (.scalar (.refl _ placed.heap) (by rintro _ ⟨⟩))
      next =>
          rcases Option.map_eq_some_iff.mp ran with ⟨⟨value, heap⟩, evaluated, done⟩
          cases done
          have current := setCurrent_allocates placed.heap (Eq.refl (some vars)) current
          exact prepared.assign (.later current old
            (xpathExecuteScalar_framed _ _ _ _ _ _ _ (old.grow current) evaluated))

theorem doLocalVar_bound (frame : Owns memory.heap vars attributes) {doc var : NodeId}
    (ran : (doLocalVar leaveContent pctx vars doc var).run (alone start) memory =
      some ((), after)) : Exists fun now => Bound memory after vars attributes now := by
  unfold doLocalVar at ran
  rcases run_first_eq_some ran with ⟨vname, middle, read, ran⟩
  cases reading_memory read
  rcases run_first_eq_some ran with ⟨vsel, middle, read, ran⟩
  cases reading_memory read
  rcases run_first_eq_some ran with ⟨tmp, placed, ready, ran⟩
  rcases localVariable_prepared frame ready with ⟨now, prepared⟩
  cases vsel with
  | some select => exact ⟨now, evalNode_bound prepared ran⟩
  | none =>
      rcases run_first_eq_some ran with ⟨cell, middle, read, ran⟩
      cases reading_memory read
      rw [alone_treeValue] at ran
      cases ran
      refine ⟨now, prepared.assign (.nodeset ((Allocates.refl _ _).alloc rfl) ?_)⟩
      rintro n ⟨⟩
      exact ⟨Nat.le_refl _, Nat.lt_succ_self _⟩

/-- An instruction binds a variable of the frame. -/
inductive Binds (pctx : Transformation Num)
    (start : TemplateTask Num → Memory Num → Option (Memory Num)) (vars : NodeId) :
    Memory Num → Memory Num → Prop where
  | variable_ {memory after : Memory Num} (doc var : NodeId)
      (ran : (doLocalVar leaveContent pctx vars doc var).run (alone start) memory =
        some ((), after)) : Binds pctx start vars memory after
  | parameter {memory after : Memory Num} (name : Option Bytes) (params : Ptr)
      (ran : (addLocalVar vars name params).run (alone start) memory = some ((), after)) :
      Binds pctx start vars memory after

theorem Binds.bound (binds : Binds pctx start vars memory after)
    (frame : Owns memory.heap vars attributes) :
    Exists fun now => Bound memory after vars attributes now := by
  cases binds with
  | variable_ doc var ran => exact doLocalVar_bound frame ran
  | parameter name params ran => exact addLocalVar_bound frame ran

/-- What happens elsewhere: the nodes of the frame and of the lists in its
values keep their places. -/
structure Elsewhere (vars : NodeId) (memory after : Memory Num) : Prop where
  grows : memory.heap.size ≤ after.heap.size
  head : (after.heap.get vars).attributes = (memory.heap.get vars).attributes
  nodes : ∀ attr, Listed memory.heap (memory.heap.get vars).attributes attr →
    (after.heap.get attr).name = (memory.heap.get attr).name ∧
      (after.heap.get attr).next = (memory.heap.get attr).next ∧
      after.extra attr = memory.extra attr ∧
      ∀ nodeset, memory.extra attr = .nodeset nodeset → ∀ n, Listed memory.heap nodeset n →
        (after.heap.get n).next = (memory.heap.get n).next

end Steps

/-! ## The copy -/

section Copying

variable {origin memory : Memory Num} {result : NodeId} {copied sources : List NodeId}
  {start : TemplateTask Num → Memory Num → Option (Memory Num)}

/-- A new frame: what was there before it is as it was. -/
structure Beside (origin later : Memory Num) (copy : NodeId) (now : List NodeId) : Prop where
  new : origin.heap.size ≤ copy
  frame : Owns later.heap copy now
  grows : origin.heap.size ≤ later.heap.size
  nodes : ∀ n < origin.heap.size, later.heap.get n = origin.heap.get n
  extra : ∀ n < origin.heap.size, later.extra n = origin.extra n
  added : ∀ attr ∈ now, origin.heap.size ≤ attr
  globals : later.vars = origin.vars

/-- The walk of `copy_variables`: the variables `copied` are made of `sources`. -/
structure Copying (origin memory : Memory Num) (result : NodeId) (copied sources : List NodeId) :
    Prop extends Beside origin memory result copied where
  bindings : bindingsOf memory copied = (bindingsOf origin sources).reverse

/-- The memory after one round. -/
def withVariable (memory : Memory Num) (result variable_ : NodeId) : Memory Num :=
  { memory with
    heap := pushVariable memory.heap result (memory.heap.get variable_).name }.setExtra
      memory.heap.size (memory.extra variable_)

theorem Copying.round (copying : Copying origin memory result copied sources) {variable_ : NodeId}
    (old : variable_ < origin.heap.size) :
    Copying origin (withVariable memory result variable_) result (memory.heap.size :: copied)
      (sources ++ [variable_]) where
  frame := copying.frame.push _
  grows := Nat.le_succ_of_le copying.grows
  nodes := by
    intro n small
    rw [← copying.nodes n small]
    exact pushVariable_old (Nat.lt_of_lt_of_le small copying.grows)
      (Nat.ne_of_lt (Nat.lt_of_lt_of_le small copying.new)) _
  extra := by
    intro n small
    rw [← copying.extra n small]
    exact if_neg (Nat.ne_of_lt (Nat.lt_of_lt_of_le small copying.grows))
  new := copying.new
  added := by
    intro attr member
    rcases List.mem_cons.mp member with rfl | member
    · exact copying.grows
    · exact copying.added attr member
  bindings := by
    have head : (((withVariable memory result variable_).heap.get memory.heap.size).name,
        (withVariable memory result variable_).extra memory.heap.size) =
          ((origin.heap.get variable_).name, origin.extra variable_) := by
      refine Prod.ext ?_ ?_
      · rw [← copying.nodes variable_ old]
        exact (pushVariable_new copying.frame.present _).1
      · rw [← copying.extra variable_ old]
        exact if_pos rfl
    have rest : bindingsOf (withVariable memory result variable_) copied =
        bindingsOf memory copied := by
      apply List.map_congr_left
      intro attr member
      refine Prod.ext ?_ ?_
      · exact congrArg XmlNode.name (pushVariable_old (copying.frame.inside attr member)
          (copying.frame.ne member) _)
      · exact if_neg (Nat.ne_of_lt (copying.frame.inside attr member))
    unfold bindingsOf at rest ⊢
    rw [List.map_cons, head, rest, List.map_append, List.map_singleton, List.reverse_append,
      List.reverse_singleton, List.singleton_append]
    exact congrArg _ copying.bindings
  globals := copying.globals

theorem alone_eachNode {body : NodeId → Thread Num Unit} {node : NodeId} {middle : Memory Num}
    {fuel : Nat} (round : (body node).run (alone start) memory = some ((), middle)) :
    (eachNode (fuel + 1) (some node) body).run (alone start) memory =
      (eachNode fuel (middle.heap.get node).next body).run (alone start) middle := by
  unfold eachNode
  rw [loopNodes, alone_first (alone_first round), alone_first (alone_nodeOf node)]

/-- The loop of `copy_variables`. -/
def copyRound (result variable_ : NodeId) : Thread Num Unit := do
  let original ← nodeOf variable_
  let copy ← newNode original.name .attribute
  setExtra copy (← extraOf variable_)
  let made ← nodeOf result
  changeNode copy fun cell => { cell with next := made.attributes }
  changeNode result fun cell => { cell with attributes := some copy }

theorem copyRound_run (memory : Memory Num) (result variable_ : NodeId) :
    (copyRound result variable_).run (alone start) memory =
      some ((), withVariable memory result variable_) := rfl

/-- The whole walk, by induction on what is left of the list. -/
theorem Copying.rounds {p : Ptr} {rest : List NodeId} (chain : Siblings origin.heap p rest)
    (old : ∀ n ∈ rest, n < origin.heap.size) {fuel : Nat} (enough : rest.length ≤ fuel)
    (copying : Copying origin memory result copied sources) :
    Exists fun after => Exists fun all =>
      (eachNode fuel p (copyRound result)).run (alone start) memory = some ((), after) ∧
        Copying origin after result all (sources ++ rest) := by
  induction chain generalizing memory copied sources fuel with
  | nil =>
      refine ⟨memory, copied, ?_, ?_⟩
      · cases fuel <;> rfl
      · rwa [List.append_nil]
  | cons variable_ rest _ inductionHypothesis =>
      cases fuel with
      | zero => cases enough
      | succ fuel =>
          have small := old variable_ List.mem_cons_self
          have next := copying.round small
          rcases inductionHypothesis (fun n member => old n (List.mem_cons_of_mem _ member))
            (Nat.le_of_succ_le_succ enough) next with ⟨after, all, ran, whole⟩
          refine ⟨after, all, ?_, ?_⟩
          · rw [alone_eachNode (copyRound_run memory result variable_), next.nodes variable_ small]
            exact ran
          · rwa [List.append_assoc] at whole

theorem copyVariables_run (start : TemplateTask Num → Memory Num → Option (Memory Num))
    {vars : NodeId} {attributes : List NodeId} {fuel : Nat}
    (frame : Owns origin.heap vars attributes) (enough : attributes.length ≤ fuel) :
    Exists fun copy => Exists fun after => Exists fun copied =>
      (copyVariables fuel vars).run (alone start) origin = some (copy, after) ∧
        Copying origin after copy copied attributes := by
  have old : ∀ n < origin.heap.size, (xmlNewNode origin.heap none .empty).1.get n =
      origin.heap.get n := fun n small => Arena.alloc_get_of_lt _ _ small
  have first : Copying origin { origin with heap := (xmlNewNode origin.heap none .empty).1 }
      origin.heap.size [] [] := by
    refine ⟨⟨Nat.le_refl _, ⟨?_, Nat.lt_succ_self _, nofun, nofun⟩, Nat.le_succ _, old,
      fun _ _ => rfl, nofun, rfl⟩, rfl⟩
    change siblings _ (Arena.get (origin.heap.alloc _) origin.heap.size).attributes = _
    rw [Arena.alloc_get_same]
    exact siblings_of_chain .nil nofun
  rcases first.rounds (follow_eq_some_iff.mp frame.listed).1 frame.inside enough with
    ⟨after, copied, ran, whole⟩
  refine ⟨origin.heap.size, after, copied, ?_, whole⟩
  have made : (newNode none .empty).run (alone start) origin = some (origin.heap.size,
      { origin with heap := (xmlNewNode origin.heap none .empty).1 }) := rfl
  unfold copyVariables
  rw [alone_first made, alone_first (alone_nodeOf vars), old vars frame.present]
  exact alone_first ran

/-- The copies have the values that were copied. -/
theorem Copying.held {after : Memory Num} {vars copy : NodeId} {attributes : List NodeId}
    (copying : Copying memory after copy copied attributes) (held : Held memory vars attributes) :
    Held after copy copied where
  frame := copying.frame
  values := by
    intro attr member
    have binding : ((after.heap.get attr).name, after.extra attr) ∈ bindingsOf memory attributes := by
      rw [← List.mem_reverse, ← copying.bindings]
      exact List.mem_map_of_mem member
    rcases List.mem_map.mp binding with ⟨source, listed, same⟩
    rw [← (Prod.mk.inj same).2]
    intro nodeset equal n there
    have inside := held.values source listed nodeset equal
    have earlier := inside n (listed_earlier (fun m found =>
      congrArg XmlNode.next (copying.nodes m (inside m found).1)) there)
    exact ⟨Nat.lt_of_lt_of_le earlier.1 copying.grows,
      Nat.ne_of_lt (Nat.lt_of_lt_of_le earlier.1 copying.new)⟩

end Copying

/-! ## Frames -/

section Frames

variable [Double Num] {pctx : Transformation Num}
  {start : TemplateTask Num → Memory Num → Option (Memory Num)} {memory : Memory Num}
  {vars : NodeId}

/-- A frame, and the memory, after some instructions that bind variables: it
was empty at first, or the copy of such a frame. -/
inductive History (pctx : Transformation Num)
    (start : TemplateTask Num → Memory Num → Option (Memory Num)) : NodeId → Memory Num → Prop where
  | fresh {vars : NodeId} {memory : Memory Num} (present : vars < memory.heap.size)
      (empty : (memory.heap.get vars).attributes = none) : History pctx start vars memory
  | copied {vars copy : NodeId} {memory after : Memory Num} {attributes : List NodeId} {fuel : Nat}
      (earlier : History pctx start vars memory)
      (listed : siblings memory.heap (memory.heap.get vars).attributes = some attributes)
      (enough : attributes.length ≤ fuel)
      (ran : (copyVariables fuel vars).run (alone start) memory = some (copy, after)) :
      History pctx start copy after
  | binds {vars : NodeId} {memory after : Memory Num} (earlier : History pctx start vars memory)
      (step : Binds pctx start vars memory after) : History pctx start vars after
  | elsewhere {vars : NodeId} {memory after : Memory Num}
      (earlier : History pctx start vars memory) (step : Elsewhere vars memory after) :
      History pctx start vars after

theorem History.held (history : History pctx start vars memory) :
    Exists fun attributes => Held memory vars attributes := by
  induction history with
  | fresh present empty =>
      refine ⟨[], ⟨?_, present, nofun, nofun⟩, nofun⟩
      rw [empty]
      exact siblings_of_chain .nil nofun
  | copied _ listed enough ran inductionHypothesis =>
      rcases inductionHypothesis with ⟨attributes, held⟩
      cases listed.symm.trans held.frame.listed
      rcases copyVariables_run start held.frame enough with ⟨_, _, copied, ran', copying⟩
      cases ran'.symm.trans ran
      exact ⟨copied, copying.held held⟩
  | binds _ step inductionHypothesis =>
      rcases inductionHypothesis with ⟨attributes, held⟩
      rcases step.bound held.frame with ⟨now, bound⟩
      exact ⟨now, held.bound bound⟩
  | elsewhere _ step inductionHypothesis =>
      rcases inductionHypothesis with ⟨attributes, held⟩
      have nodes := fun attr member =>
        step.nodes attr (listed_of_siblings held.frame.listed attr member)
      refine ⟨attributes, held.frame.keep step.grows step.head fun attr member =>
        (nodes attr member).2.1, fun attr member => ?_⟩
      rcases nodes attr member with ⟨-, -, same, links⟩
      rw [same]
      exact (held.values attr member).keep step.grows links

end Frames

/-! ## Looking up -/

section LookingUp

variable (pctx : Transformation Num) (vars : NodeId)

/-- `get_variable_rv` with a frame. -/
def lookUp (memory : Memory Num) (vars : NodeId) (name : Option Bytes) :
    Option (RValue Num × Heap) := do
  let env ← pctx.scope vars memory
  getVariableRv env name memory.heap

/-- The variables of the frame stand for what they stood for, and the nodes
that there were have not changed. -/
def StandsAsBefore (memory later : Memory Num) : Prop :=
  (∀ name, (pctx.scope vars later).map (fun env => env.variableValue name) =
    (pctx.scope vars memory).map fun env => env.variableValue name) ∧
  ∀ n < memory.heap.size, later.heap.get n = memory.heap.get n

/-- Among the variables of one name the newest, which comes first, and the
oldest have values that are alike. -/
def Unambiguous (memory : Memory Num) (attributes : List NodeId) : Prop :=
  ∀ name newest oldest,
    attributes.find? (fun attr => decide (xmlsEquals name (memory.heap.get attr).name)) =
      some newest →
    attributes.reverse.find? (fun attr => decide (xmlsEquals name (memory.heap.get attr).name)) =
      some oldest →
    Alike memory.heap (memory.extra newest) (memory.extra oldest)

variable {pctx vars} {origin memory after later : Memory Num} {copy : NodeId}
  {attributes copied : List NodeId}

theorem lookUp_eq (frame : Owns memory.heap vars attributes) (name : Option Bytes) :
    lookUp pctx memory vars name =
      rvalCopy memory.heap ((pctx.scopeOf memory vars attributes).variableValue name) := by
  rw [lookUp, frame.scope pctx]
  exact getVariableRv_eq _ _ _

theorem variableValue_congr {env other : Env Num} (locals : env.localVariables = other.localVariables)
    (globals : env.globals = other.globals) (name : Option Bytes) :
    env.variableValue name = other.variableValue name := by
  unfold Env.variableValue Env.globalValue
  rw [locals, globals]

theorem bindingsOf_congr (nodes : ∀ attr ∈ attributes, later.heap.get attr = memory.heap.get attr)
    (extra : ∀ attr ∈ attributes, later.extra attr = memory.extra attr) :
    bindingsOf later attributes = bindingsOf memory attributes := by
  apply List.map_congr_left
  intro attr member
  rw [nodes attr member, extra attr member]

theorem Beside.bound {now next : List NodeId} (beside : Beside origin memory copy now)
    (bound : Bound memory later copy now next) : Beside origin later copy next where
  new := beside.new
  frame := bound.frame
  grows := Nat.le_trans beside.grows bound.grows
  nodes := by
    intro n small
    rw [← beside.nodes n small]
    refine bound.nodes n (Nat.lt_of_lt_of_le small beside.grows)
      (Nat.ne_of_lt (Nat.lt_of_lt_of_le small beside.new)) fun member => ?_
    exact absurd small (Nat.not_lt.mpr (beside.added n member))
  extra := by
    intro n small
    rw [← beside.extra n small]
    refine bound.others n fun member => ?_
    rcases bound.added n member with old | recent
    · exact absurd small (Nat.not_lt.mpr (beside.added n old))
    · exact absurd small (Nat.not_lt.mpr (Nat.le_trans beside.grows recent))
  added := by
    intro attr member
    exact (bound.added attr member).elim (beside.added attr) (Nat.le_trans beside.grows)
  globals := bound.globals.trans beside.globals

theorem Beside.stands {now : List NodeId} (beside : Beside origin later copy now)
    (frame : Owns origin.heap vars attributes) : StandsAsBefore pctx vars origin later := by
  refine ⟨fun name => ?_, beside.nodes⟩
  have nodes := fun attr member => beside.nodes attr (frame.inside attr member)
  have kept : Owns later.heap vars attributes := by
    refine frame.keep beside.grows ?_ fun attr member => ?_
    · rw [beside.nodes vars frame.present]
    · rw [nodes attr member]
  rw [kept.scope pctx, frame.scope pctx, Option.map_some, Option.map_some]
  refine congrArg some (variableValue_congr ?_ ?_ name)
  · exact bindingsOf_congr nodes fun attr member => beside.extra attr (frame.inside attr member)
  · exact congrFun beside.globals _

/-- Lists of nodes that have not changed are copied as before. -/
theorem copiedParts_keep {heap later : Heap} {p : Ptr}
    (inside : ∀ n, Listed heap p n → n < heap.size) (grows : heap.size ≤ later.size)
    (same : ∀ n < heap.size, later.get n = heap.get n) :
    copiedParts later p = copiedParts heap p := by
  have links : ∀ n, Listed heap p n → (later.get n).next = (heap.get n).next :=
    fun n listed => congrArg XmlNode.next (same n (inside n listed))
  have lists : siblings later p = siblings heap p := by
    apply Option.ext
    intro nodes
    constructor
    · intro found
      have members := fun n member => listed_earlier links (listed_of_siblings found n member)
      refine siblings_of_chain ?_ fun n member => inside n (members n member)
      exact (follow_eq_some_iff.mp found).1.congr fun n member => (links n (members n member)).symm
    · intro found
      have members := listed_of_siblings found
      refine siblings_of_chain ?_ fun n member =>
        Nat.lt_of_lt_of_le (inside n (members n member)) grows
      exact (follow_eq_some_iff.mp found).1.congr fun n member => links n (members n member)
  unfold copiedParts
  rw [lists]
  apply Option.map_congr
  intro nodes found
  apply List.map_congr_left
  intro n member
  rw [same n (inside n (listed_of_siblings found n member))]

theorem alike_keep {heap later : Heap} {first second : RValue Num}
    (left : Inside heap vars first) (right : Inside heap vars second)
    (grows : heap.size ≤ later.size) (same : ∀ n < heap.size, later.get n = heap.get n) :
    Alike later first second ↔ Alike heap first second := by
  cases first with
  | nodeset p =>
      cases second with
      | nodeset q =>
          rw [Alike, Alike, copiedParts_keep (fun n listed => (left p rfl n listed).1) grows same,
            copiedParts_keep (fun n listed => (right q rfl n listed).1) grows same]
      | null | bool | int | number | string => rfl
  | null | bool | int | number | string =>
      cases second <;> rfl

/-- The copy is searched from its other end. -/
theorem Copying.lookUp_copy (copying : Copying memory after copy copied attributes)
    (name : Option Bytes) :
    lookUp pctx after copy name =
      rvalCopy after.heap ((pctx.scopeOf memory vars attributes.reverse).variableValue name) := by
  rw [lookUp_eq copying.frame]
  refine congrArg _ (variableValue_congr ?_ ?_ name)
  · change bindingsOf after copied = bindingsOf memory attributes.reverse
    rw [copying.bindings, bindingsOf, bindingsOf, List.map_reverse]
  · exact congrFun copying.globals _

theorem Copying.lookUp_frame (copying : Copying memory after copy copied attributes)
    (frame : Owns memory.heap vars attributes) (name : Option Bytes) :
    lookUp pctx after vars name =
      rvalCopy after.heap ((pctx.scopeOf memory vars attributes).variableValue name) := by
  have kept : Owns after.heap vars attributes := by
    refine frame.keep copying.grows ?_ fun attr member => ?_
    · rw [copying.nodes vars frame.present]
    · rw [copying.nodes attr (frame.inside attr member)]
  rw [lookUp_eq kept]
  refine congrArg _ (variableValue_congr ?_ ?_ name)
  · exact bindingsOf_congr (fun attr member => copying.nodes attr (frame.inside attr member))
      fun attr member => copying.extra attr (frame.inside attr member)
  · exact congrFun copying.globals _

/-- Copy and frame give the same value of a name if and only if its newest and
its oldest variable do. -/
theorem Copying.same_iff (copying : Copying memory after copy copied attributes)
    (held : Held memory vars attributes) :
    (∀ name, lookUp pctx after copy name = lookUp pctx after vars name) ↔
      Unambiguous memory attributes := by
  have values : ∀ attr ∈ attributes, Inside after.heap vars (memory.extra attr) := by
    intro attr member
    have inside := held.values attr member
    refine inside.keep copying.grows fun nodeset same n listed => ?_
    rw [copying.nodes n (inside nodeset same n listed).1]
  have alike : ∀ first ∈ attributes, ∀ second ∈ attributes,
      (rvalCopy after.heap (memory.extra second) = rvalCopy after.heap (memory.extra first) ↔
        Alike memory.heap (memory.extra first) (memory.extra second)) := by
    intro first one second two
    rw [← alike_keep (held.values first one) (held.values second two) copying.grows copying.nodes,
      ← rvalCopy_eq_iff (values first one) (values second two)]
    exact eq_comm
  have looked : ∀ name, lookUp pctx after copy name = lookUp pctx after vars name ↔
      rvalCopy after.heap ((pctx.scopeOf memory vars attributes.reverse).variableValue name) =
        rvalCopy after.heap ((pctx.scopeOf memory vars attributes).variableValue name) := by
    intro name
    rw [copying.lookUp_copy, copying.lookUp_frame held.frame]
  refine (forall_congr' looked).trans (forall_congr' fun name => ?_)
  rw [variableValue_scopeOf, variableValue_scopeOf]
  cases newest : attributes.find? fun attr =>
      decide (xmlsEquals name (memory.heap.get attr).name) with
  | none =>
      have absent : attributes.reverse.find? (fun attr =>
          decide (xmlsEquals name (memory.heap.get attr).name)) = none := by
        apply List.find?_eq_none.mpr
        intro attr member
        exact List.find?_eq_none.mp newest attr (List.mem_reverse.mp member)
      rw [absent]
      exact ⟨fun _ _ _ found => (nomatch found), fun _ => rfl⟩
  | some first =>
      cases oldest : attributes.reverse.find? fun attr =>
          decide (xmlsEquals name (memory.heap.get attr).name) with
      | none =>
          have member := List.mem_reverse.mpr (List.mem_of_find?_eq_some newest)
          exact absurd (List.find?_some newest) (List.find?_eq_none.mp oldest first member)
      | some last =>
          have equal := alike first (List.mem_of_find?_eq_some newest) last
            (List.mem_reverse.mp (List.mem_of_find?_eq_some oldest))
          constructor
          · rintro same _ _ ⟨⟩ ⟨⟩
            exact equal.mp same
          · exact fun same => equal.mpr (same first last rfl rfl)

variable [Double Num] {start : TemplateTask Num → Memory Num → Option (Memory Num)}

theorem Beside.bindings (beside : Beside origin after copy copied)
    (bindings : Relation.ReflTransGen (Binds pctx start copy) after later) :
    Exists fun now => Beside origin later copy now := by
  induction bindings with
  | refl => exact ⟨copied, beside⟩
  | tail _ step inductionHypothesis =>
      rcases inductionHypothesis with ⟨now, earlier⟩
      rcases step.bound earlier.frame with ⟨next, bound⟩
      exact ⟨next, earlier.bound bound⟩

/-- A copy of the frame gives the same values as the frame, and whatever is
bound in it later, the frame stands as before. -/
def CopyAgrees (pctx : Transformation Num)
    (start : TemplateTask Num → Memory Num → Option (Memory Num)) (vars : NodeId) (fuel : Nat)
    (memory : Memory Num) : Prop :=
  Exists fun copy => Exists fun after =>
    (copyVariables fuel vars).run (alone start) memory = some (copy, after) ∧
    (∀ name, lookUp pctx after copy name = lookUp pctx after vars name) ∧
    ∀ later, Relation.ReflTransGen (Binds pctx start copy) after later →
      StandsAsBefore pctx vars memory later

theorem copyAgrees_iff (held : Held memory vars attributes) {fuel : Nat}
    (enough : attributes.length ≤ fuel) :
    CopyAgrees pctx start vars fuel memory ↔ Unambiguous memory attributes := by
  rcases copyVariables_run start held.frame enough with ⟨copy, after, copied, ran, copying⟩
  constructor
  · rintro ⟨copy', after', ran', same, -⟩
    cases ran.symm.trans ran'
    exact (copying.same_iff held).mp same
  · intro unambiguous
    refine ⟨copy, after, ran, (copying.same_iff held).mpr unambiguous, fun later bindings => ?_⟩
    rcases copying.toBeside.bindings bindings with ⟨now, beside⟩
    exact beside.stands held.frame

/-- A frame that any instructions have left: its copies agree with it if and
only if no name has an older variable with another value than the newest. -/
theorem copies_agree_iff (pctx : Transformation Num)
    (start : TemplateTask Num → Memory Num → Option (Memory Num)) (vars : NodeId)
    (memory : Memory Num) (history : History pctx start vars memory) :
    Exists fun attributes =>
      siblings memory.heap (memory.heap.get vars).attributes = some attributes ∧
        ∀ fuel, attributes.length ≤ fuel →
          (CopyAgrees pctx start vars fuel memory ↔ Unambiguous memory attributes) := by
  rcases history.held with ⟨attributes, held⟩
  exact ⟨attributes, held.frame.listed, fun fuel enough => copyAgrees_iff held enough⟩

end LookingUp

/-- An empty frame, `<xsl:variable name="x" select="5"/>`, and a parameter `x`
that is 7. -/
def beforeDeclaration : Memory Int where
  heap := .ofList [
    { type := .empty },
    { type := .element, name := some (lit "xsl:variable"), attributes := some 2 },
    { type := .attribute, name := some xslAName, content := some (lit "x"), next := some 3 },
    { type := .attribute, name := some xslASelect, content := some (lit "5") },
    { type := .attribute, name := some (lit "x") }]
  extra := fun _ => .int 7
  vars := fun _ => []
  rawout := fun _ => 0

/-- The variable is declared, with node 1 as the current one. -/
def afterDeclaration : Memory Int :=
  { beforeDeclaration.setExtra 5 .null with
    heap := (pushVariable beforeDeclaration.heap 0 (some (lit "x"))).modify 0 fun cell =>
      { cell with parent := some 1 } }.setExtra 5 (.int 5)

/-- The parameter is added. -/
def afterParameter : Memory Int :=
  { afterDeclaration with
    heap := pushVariable afterDeclaration.heap 0 (some (lit "x")) }.setExtra 6 (.int 7)

theorem declaration_run :
    (doLocalVar leaveContent variableContent.context 0 1 1).run (alone fun _ _ => none)
      beforeDeclaration = some ((), afterDeclaration) := rfl

theorem parameter_run :
    (addLocalVar 0 (some (lit "x")) (some 4)).run (alone fun _ _ => none) afterDeclaration =
      some ((), afterParameter) := rfl

theorem afterParameter_history :
    History variableContent.context (fun _ _ => none) 0 afterParameter :=
  .binds (.binds (.fresh (by decide) rfl) (.variable_ 1 1 declaration_run))
    (.parameter (some (lit "x")) (some 4) parameter_run)

theorem copies_agree_after_parameter :
    Exists fun attributes =>
      siblings afterParameter.heap (afterParameter.heap.get 0).attributes = some attributes ∧
        ∀ fuel, attributes.length ≤ fuel →
          (CopyAgrees variableContent.context (fun _ _ => none) 0 fuel afterParameter ↔
            Unambiguous afterParameter attributes) :=
  copies_agree_iff variableContent.context (fun _ _ => none) 0 afterParameter
    afterParameter_history

/-- The frame gives 7 for `x`, its copy 5. -/
theorem given_parameter_is_lost :
    History variableContent.context (fun _ _ => none) 0 afterParameter ∧
      ¬ CopyAgrees variableContent.context (fun _ _ => none) 0 2 afterParameter := by
  refine ⟨afterParameter_history, fun agrees => ?_⟩
  rcases afterParameter_history.held with ⟨attributes, held⟩
  have listed : siblings afterParameter.heap (afterParameter.heap.get 0).attributes =
      some [6, 5] := rfl
  cases listed.symm.trans held.frame.listed
  have alike := (copyAgrees_iff held (Nat.le_refl 2)).mp agrees (some (lit "x")) 6 5 rfl rfl
  cases alike

end ScopeCopies
end TurboXSL
