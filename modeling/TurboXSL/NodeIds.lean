import TurboXSL.Numbering
import TurboXSL.PathRuns
import TurboXSL.SortedVisits

namespace TurboXSL

open Library Parse

/-!
# What `generate-id` tells

`generate-id` prints the `uid` of a node, which `xml_new_node` sets to the
address of the new node.  `add_to_selection` hands the `uid` on;
`xpath_nodeset_copy`, which copies the node-sets of variables and of
parameters, does not, and neither does the step `@name`, which makes a new
attribute node.  Of the address the format `%x` shows the low 32 bits.
-/

/-! ## The function -/

/-- A digit of `%x`. -/
def hexDigit (n : Nat) : UInt8 := UInt8.ofNat (if n < 10 then 48 + n else 87 + n)

/-- `%x` -/
def hexText (n : Nat) : Bytes :=
  if n < 16 then [hexDigit n] else hexText (n / 16) ++ [hexDigit (n % 16)]
termination_by n
decreasing_by omega

/-- The bits of an address that `%x` reads. -/
def lowBits (address : NodeId → UInt64) (uid : Ptr) : Nat :=
  match uid with
  | none => 0
  | some node => (address node).toNat % 2 ^ 32

/-- `sprintf(buf, "id_%x", current->uid)` -/
def idText (address : NodeId → UInt64) (uid : Ptr) : Bytes :=
  lit "id_" ++ hexText (lowBits address uid)

/-- `xf_getid` -/
def xfGetid {Num : Type} (address : NodeId → UInt64) (args : List (Operand Num)) : Eval Num :=
  fun current heap =>
    match args with
    | [] => some (.string (some (idText address (heap.get current).uid)), heap)
    | operand :: _ => do
        let (value, heap) ← operand.run current heap
        match value with
        | .nodeset (some node) => some (.string (some (idText address (heap.get node).uid)), heap)
        | _ => some (.null, heap)

theorem hexDigit_injective {n m : Nat} (left : n < 16) (right : m < 16)
    (same : hexDigit n = hexDigit m) : n = m := by
  unfold hexDigit at same
  have values := congrArg UInt8.toNat same
  rw [UInt8.toNat_ofNat', UInt8.toNat_ofNat'] at values
  split at values <;> split at values <;> omega

theorem hexText_ne_nil (n : Nat) : hexText n ≠ [] := by
  unfold hexText
  split
  · exact List.cons_ne_nil _ _
  · exact List.append_ne_nil_of_right_ne_nil _ (List.cons_ne_nil _ _)

theorem hexText_length {n : Nat} (large : ¬ n < 16) : 1 < (hexText n).length := by
  unfold hexText
  rw [if_neg large, List.length_append, List.length_singleton]
  exact Nat.lt_add_of_pos_left (List.length_pos_of_ne_nil (hexText_ne_nil (n / 16)))

/-- Different numbers are printed differently. -/
theorem hexText_injective {n m : Nat} (same : hexText n = hexText m) : n = m := by
  induction n using Nat.strongRecOn generalizing m with
  | ind n inductionHypothesis =>
      by_cases small : n < 16
      · have one : (hexText n).length = 1 := by
          unfold hexText
          rw [if_pos small]
          rfl
        by_cases small' : m < 16
        · unfold hexText at same
          rw [if_pos small, if_pos small'] at same
          exact hexDigit_injective small small' (List.cons.inj same).1
        · rw [same] at one
          exact absurd (hexText_length small') (one ▸ Nat.lt_irrefl 1)
      · by_cases small' : m < 16
        · have one : (hexText m).length = 1 := by
            unfold hexText
            rw [if_pos small']
            rfl
          rw [← same] at one
          exact absurd (hexText_length small) (one ▸ Nat.lt_irrefl 1)
        · unfold hexText at same
          rw [if_neg small, if_neg small'] at same
          have parts := List.append_inj' same rfl
          have high : n / 16 = m / 16 := inductionHypothesis (n / 16) (by omega) parts.1
          have low : n % 16 = m % 16 := hexDigit_injective (Nat.mod_lt n (by decide))
            (Nat.mod_lt m (by decide)) (List.cons.inj parts.2).1
          omega

theorem idText_eq_iff (address : NodeId → UInt64) (uid other : Ptr) :
    idText address uid = idText address other ↔ lowBits address uid = lowBits address other := by
  constructor
  · intro same
    exact hexText_injective (List.append_cancel_left same)
  · intro same
    unfold idText
    rw [same]

/-! ## References -/

/-- `c` stands for the node `d` of a document; `a` is the node that was made
last with a `uid` of its own on the way from `d` to `c`. -/
inductive Reference (document : NodeId → Prop) : Heap → NodeId → NodeId → NodeId → Prop where
  | node {heap : Heap} {d : NodeId} (member : document d) (made : d < heap.size)
      (own : (heap.get d).uid = some d) : Reference document heap d d d
  | selected {heap : Heap} {d a src : NodeId} (prev : Ptr) (position : Nat)
      (earlier : Reference document heap d a src) :
      Reference document (addToSelection heap prev src position).1 d a heap.size
  | stored {heap : Heap} {d a src : NodeId} (prev : Ptr) (position : Nat)
      (earlier : Reference document heap d a src) :
      Reference document (nodesetCopies heap prev [(src, position)]).1 d heap.size heap.size
  | named {heap : Heap} {d a src attr : NodeId} {attrs : List NodeId} {name value : Bytes}
      (earlier : Reference document heap d a src)
      (listed : siblings heap (heap.get src).attributes = some attrs) (member : document attr)
      (found : attrs.find? (fun attr => (heap.get attr).name = some name) = some attr)
      (content : (heap.get attr).content = some value) :
      Reference document (newAttribute heap value).1 attr heap.size heap.size
  | kept {before after : Heap} {d a c : NodeId} (earlier : Reference document before d a c)
      (grows : before.size ≤ after.size) (same : (after.get c).uid = (before.get c).uid) :
      Reference document after d a c

/-- `current` or the first node of the argument is what `generate-id` is asked for. -/
inductive Asks {Num : Type} (args : List (Operand Num)) (current : NodeId) (heap : Heap) :
    NodeId → Heap → Prop where
  | current (none_ : args = []) : Asks args current heap current heap
  | argument {operand : Operand Num} {rest : List (Operand Num)} {c : NodeId} {after : Heap}
      (some_ : args = operand :: rest)
      (evaluates : operand.run current heap = some (.nodeset (some c), after)) :
      Asks args current heap c after

theorem xfGetid_eq {Num : Type} (address : NodeId → UInt64) {args : List (Operand Num)}
    {current c : NodeId} {heap after : Heap} (asks : Asks args current heap c after) :
    xfGetid address args current heap =
      some (.string (some (idText address (after.get c).uid)), after) := by
  unfold xfGetid
  cases asks with
  | current none_ => rw [none_]
  | argument some_ evaluates =>
      rw [some_]
      simp only [evaluates, Option.bind_eq_bind, Option.bind_some]

theorem setNext_uid (heap : Heap) (node next : Ptr) (n : NodeId) :
    ((setNext heap node next).get n).uid = (heap.get n).uid := by
  cases node with
  | none => rfl
  | some p =>
      by_cases same : n = p
      · rw [same, setNext_get_same]
      · rw [setNext_get_of_ne fun here => same (Option.some.inj here).symm]

theorem addToSelection_uid (heap : Heap) (prev : Ptr) (src : NodeId) (position : Nat) :
    ((addToSelection heap prev src position).1.get heap.size).uid = (heap.get src).uid := by
  refine (setNext_uid _ prev (some heap.size) heap.size).trans ?_
  rw [heap.alloc_get_same]
  rfl

namespace Reference

variable {document : NodeId → Prop} {heap : Heap} {d a c : NodeId}

theorem made (reference : Reference document heap d a c) : c < heap.size := by
  induction reference with
  | node _ made _ => exact made
  | selected prev =>
      change _ < (setNext _ prev _).size
      rw [setNext_size]
      exact Nat.lt_succ_self _
  | stored prev =>
      change _ < (setNext _ prev _).size
      rw [setNext_size]
      exact Nat.lt_succ_self _
  | named => exact Nat.lt_succ_self _
  | kept _ grows _ inductionHypothesis => exact Nat.lt_of_lt_of_le inductionHypothesis grows

/-- A reference has the `uid` that was made last. -/
theorem uid (reference : Reference document heap d a c) : (heap.get c).uid = some a := by
  induction reference with
  | node _ _ own => exact own
  | selected prev position earlier inductionHypothesis =>
      rw [addToSelection_uid]
      exact inductionHypothesis
  | stored prev =>
      refine (setNext_uid _ prev _ _).trans ?_
      rw [Arena.alloc_get_same]
  | named => exact congrArg XmlNode.uid (newAttribute_get _ _).2
  | kept _ _ same inductionHypothesis => exact same.trans inductionHypothesis

end Reference

/-! ## Where references come from -/

/-- The nodes from before keep their `uid`. -/
structure KeepsIds (before after : Heap) : Prop where
  grows : before.size ≤ after.size
  same : ∀ n < before.size, (after.get n).uid = (before.get n).uid

theorem KeepsIds.trans {before middle after : Heap} (first : KeepsIds before middle)
    (second : KeepsIds middle after) : KeepsIds before after where
  grows := Nat.le_trans first.grows second.grows
  same := fun n small =>
    (second.same n (Nat.lt_of_lt_of_le small first.grows)).trans (first.same n small)

/-- One more node, linked behind another one. -/
theorem KeepsIds.append (heap : Heap) (cell : XmlNode) (prev next : Ptr) :
    KeepsIds heap (setNext (heap.alloc cell) prev next) where
  grows := by
    rw [setNext_size]
    exact Nat.le_succ _
  same := by
    intro n small
    rw [setNext_uid, heap.alloc_get_of_lt cell small]

section Routines

variable {document : NodeId → Prop}

theorem Reference.later {before after : Heap} {d a c : NodeId}
    (reference : Reference document before d a c) (keeps : KeepsIds before after) :
    Reference document after d a c :=
  .kept reference keeps.grows (keeps.same c reference.made)

theorem addAllToSelection_keepsIds (sources : List (NodeId × Nat)) (heap : Heap) (prev : Ptr) :
    KeepsIds heap (addAllToSelection heap prev sources).1 := by
  induction sources generalizing heap prev with
  | nil => exact ⟨Nat.le_refl _, fun _ _ => rfl⟩
  | cons source rest inductionHypothesis =>
      exact (KeepsIds.append heap _ prev _).trans (inductionHypothesis _ _)

theorem nodesetCopies_keepsIds (sources : List (NodeId × Nat)) (heap : Heap) (prev : Ptr) :
    KeepsIds heap (nodesetCopies heap prev sources).1 := by
  induction sources generalizing heap prev with
  | nil => exact ⟨Nat.le_refl _, fun _ _ => rfl⟩
  | cons source rest inductionHypothesis =>
      exact (KeepsIds.append heap _ prev _).trans (inductionHypothesis _ _)

/-- The members of a selection of references are references. -/
theorem addAllToSelection_references (sources : List (NodeId × Nat)) (heap : Heap) (prev : Ptr) :
    List.Forall₂ (fun c source => ∀ {d a}, Reference document heap d a source.1 →
        Reference document (addAllToSelection heap prev sources).1 d a c)
      (addAllToSelection heap prev sources).2 sources := by
  induction sources generalizing heap prev with
  | nil => exact .nil
  | cons source rest inductionHypothesis =>
      rcases source with ⟨src, position⟩
      have keeps : KeepsIds heap (addToSelection heap prev src position).1 := .append heap _ prev _
      apply List.Forall₂.cons
      · intro d a reference
        exact (reference.selected prev position).later (addAllToSelection_keepsIds rest _ _)
      · refine (inductionHypothesis (addToSelection heap prev src position).1 (some heap.size)).imp ?_
        intro c source further d a reference
        exact further (reference.later keeps)

/-- The copies of a variable's node-set are references with a `uid` of their own. -/
theorem nodesetCopies_references (sources : List (NodeId × Nat)) (heap : Heap) (prev : Ptr) :
    List.Forall₂ (fun c source => ∀ {d a}, Reference document heap d a source.1 →
        Reference document (nodesetCopies heap prev sources).1 d c c)
      (nodesetCopies heap prev sources).2 sources := by
  induction sources generalizing heap prev with
  | nil => exact .nil
  | cons source rest inductionHypothesis =>
      rcases source with ⟨src, position⟩
      have keeps : KeepsIds heap (nodesetCopies heap prev [(src, position)]).1 :=
        .append heap _ prev _
      apply List.Forall₂.cons
      · intro d a reference
        exact (reference.stored prev position).later (nodesetCopies_keepsIds rest _ _)
      · refine (inductionHypothesis (nodesetCopies heap prev [(src, position)]).1
          (some heap.size)).imp ?_
        intro c source further d a reference
        exact further (reference.later keeps)

/-- Sorting sets links and positions. -/
theorem relink_keepsIds (nodes : List NodeId) (heap : Heap) (prev : Ptr) (pos : Nat) :
    KeepsIds heap (relink heap prev pos nodes) := by
  induction nodes generalizing heap prev pos with
  | nil => exact ⟨Nat.le_refl _, fun _ _ => rfl⟩
  | cons node rest inductionHypothesis =>
      refine KeepsIds.trans ?_ (inductionHypothesis _ _ _)
      refine ⟨Nat.le_refl _, ?_⟩
      intro n _
      by_cases same : n = node
      · rw [same, heap.modify_get_same]
      · rw [heap.modify_get_of_ne _ same]

section Evaluation

variable {Num : Type} [Double Num] {env : Env Num} {depth : Nat} {heap after : Heap}
  {d a c : NodeId} (reference : Reference document heap d a c) (old : Old env.locals heap)
  (other : env.locals ≠ some c)

include reference other

omit [Double Num] in
theorem Reference.allocates (allocates : Allocates env.locals heap after) :
    Reference document after d a c := by
  refine .kept reference allocates.grows ?_
  rw [allocates.same c reference.made other]

include old

/-- Evaluation leaves the references from before alone. -/
theorem Reference.evaluated {etree : Expr} {current : NodeId} {value : RValue Num}
    (evaluated : xpathExecuteScalar env depth etree current heap = some (value, after)) :
    Reference document after d a c :=
  reference.allocates other
    (xpathExecuteScalar_framed env depth etree current heap value after old evaluated).allocates

/-- So does sorting, also with the nodes that it sorts. -/
theorem Reference.sorted {sort : SortChild} {selection sorted : Ptr} {nodes : List NodeId}
    (listed : siblings heap selection = some nodes)
    (done : xpathSortSelection env depth heap selection sort = some (after, sorted)) :
    Reference document after d a c := by
  rcases xpathSortSelection_spec old listed done with
    ⟨_, nodes', middle, _, _, allocates, result, _⟩
  rw [result]
  split
  · exact reference
  · exact (reference.allocates other allocates).later (relink_keepsIds nodes' middle none 0)

end Evaluation

end Routines

/-- The nodes of a parsed document, its attributes among them, are references to themselves. -/
theorem XmlParseString.reference {heap after : Heap} {string : Bytes} {root n : NodeId}
    {document : NodeId → Prop} (parsed : XmlParseString heap string root after)
    (low : heap.size ≤ n) (high : n < after.size) (member : document n) :
    Reference document after n n n := by
  refine .node member high ?_
  rcases parsed with ⟨_, before, done, walk⟩
  have renumbered := renumberChildren_renumbered walk
  rcases renumbered.cell n with ⟨position, here⟩
  rw [here]
  exact DoParse.uid done low (renumbered.size ▸ high)

/-! ## The law -/

section Law

variable {Num : Type} {document : NodeId → Prop} (address : NodeId → UInt64)
  {args args' : List (Operand Num)} {current current' c c' d d' a a' : NodeId}
  {heap heap' after after' : Heap}

/-- The identifiers tell the nodes of the document apart exactly if two
references to one node have the `uid` of one copy, and two references to
different nodes go back to copies whose addresses differ in the bits printed. -/
theorem ids_right_iff (asks : Asks args current heap c after)
    (asks' : Asks args' current' heap' c' after') (one : Reference document after d a c)
    (other : Reference document after' d' a' c') :
    ((xfGetid address args current heap).map Prod.fst =
        (xfGetid address args' current' heap').map Prod.fst ↔ d = d') ↔
      d = d' ∧ lowBits address (some a) = lowBits address (some a') ∨
        d ≠ d' ∧ lowBits address (some a) ≠ lowBits address (some a') := by
  have ids : (xfGetid address args current heap).map Prod.fst =
      (xfGetid address args' current' heap').map Prod.fst ↔
        lowBits address (some a) = lowBits address (some a') := by
    rw [xfGetid_eq address asks, xfGetid_eq address asks', one.uid, other.uid,
      ← idText_eq_iff address (some a) (some a')]
    constructor
    · intro same
      injection same with value
      injection value with text
      exact Option.some.inj text
    · intro same
      rw [Option.map_some, Option.map_some, same]
  rw [ids]
  by_cases same : d = d'
  · simp [same]
  · simp [same]

end Law

/-! ## A variable read twice -/

/-- The document `<a/>` and a selection of its element. -/
def selectedElement : Heap := (addToSelection (parsedMemory 30 (lit "<a/>")) none 1 1).1

/-- The selection is the value of `$x`. -/
def selectedEnv : Env Int := { Env.bare Int 0 with localVariables := [(some (lit "x"), .nodeset (some 2))] }

/-- The argument `$x`. -/
def variableX : List (Operand Int) := operandsAt selectedEnv 0 ((xpathCompile (lit "$x")).getD .null)

/-- The memory behind a copy of the selection. -/
def readOnce : Heap := (nodesetCopies selectedElement none [(2, 1)]).1

def readTwice : Heap := (nodesetCopies readOnce none [(2, 1)]).1

/-- The nodes lie one behind the other. -/
def addressOf (node : NodeId) : UInt64 := UInt64.ofNat (4096 * (node + 1))

theorem element_reference : Reference (· = 1) (parsedMemory 30 (lit "<a/>")) 1 1 1 := by
  have parsed : XmlParseString .empty (lit "<a/>") 0 (parsedMemory 30 (lit "<a/>")) :=
    xmlParseString_of_run ⟨30, rfl⟩ nofun rfl
  exact parsed.reference (Nat.zero_le 1) (by decide) rfl

theorem selectedElement_reference : Reference (· = 1) selectedElement 1 1 2 :=
  element_reference.selected none 1

theorem readOnce_reference : Reference (· = 1) readOnce 1 3 3 :=
  selectedElement_reference.stored none 1

theorem readTwice_reference : Reference (· = 1) readTwice 1 4 4 :=
  (selectedElement_reference.later (nodesetCopies_keepsIds _ _ _)).stored none 1

theorem asks_first : Asks variableX 1 selectedElement 3 readOnce := .argument rfl rfl

theorem asks_second : Asks variableX 1 readOnce 4 readTwice := .argument rfl rfl

/-- The element of `<a/>` and a selection of it have one identifier. -/
theorem ids_right_iff_selected :
    (xfGetid addressOf ([] : List (Operand Int)) 1 selectedElement).map Prod.fst =
      (xfGetid addressOf ([] : List (Operand Int)) 2 selectedElement).map Prod.fst := by
  have element : Reference (· = 1) selectedElement 1 1 1 :=
    element_reference.later (addAllToSelection_keepsIds [(1, 1)] _ none)
  have right := ids_right_iff addressOf (.current (rfl : ([] : List (Operand Int)) = []))
    (.current (rfl : ([] : List (Operand Int)) = [])) element selectedElement_reference
  exact (right.mpr (.inl ⟨rfl, rfl⟩)).mpr rfl

/-- Two readings of a variable give one node two identifiers. -/
theorem variable_read_twice_has_two_ids : ¬ ∀ (address : NodeId → UInt64)
    (document : NodeId → Prop) (args args' : List (Operand Int))
    (current current' c c' d d' a a' : NodeId) (heap heap' after after' : Heap),
    (∀ n m, n < after'.size → m < after'.size → address n = address m → n = m) →
    Asks args current heap c after → Asks args' current' heap' c' after' →
    Reference document after d a c → Reference document after' d' a' c' →
    ((xfGetid address args current heap).map Prod.fst =
      (xfGetid address args' current' heap').map Prod.fst ↔ d = d') := by
  intro right
  have apart : ∀ n m, n < readTwice.size → m < readTwice.size → addressOf n = addressOf m → n = m := by
    intro n m small small' same
    have bound : readTwice.size = 5 := by decide
    have values := congrArg UInt64.toNat same
    unfold addressOf at values
    rw [UInt64.toNat_ofNat', UInt64.toNat_ofNat'] at values
    omega
  have same := (right addressOf _ _ _ _ _ _ _ _ _ _ _ _ _ _ _ apart asks_first asks_second
    readOnce_reference readTwice_reference).mpr rfl
  rw [xfGetid_eq _ asks_first, xfGetid_eq _ asks_second, readOnce_reference.uid,
    readTwice_reference.uid] at same
  injection same with value
  injection value with text
  have bits := (idText_eq_iff addressOf (some 3) (some 4)).mp (Option.some.inj text)
  exact absurd bits (by decide)

end TurboXSL
