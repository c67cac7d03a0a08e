import TurboXSL.PathRuns

namespace TurboXSL

open Library

/-!
# Unions of paths

A union evaluates its operands from the left and links the list that one of
them yields behind the list of those before it.  The nodes are not copied; what
changes are the links to the next and the previous sibling where two lists meet,
and the positions.
-/

/-! ## Linking lists -/

/-- Only the nodes for which `changed` holds differ, and only in their place in
a list. -/
structure Rewired (before after : Heap) (changed : NodeId → Prop) : Prop where
  size : after.size = before.size
  cell : ∀ n, Exists fun next => Exists fun prev => Exists fun position =>
    after.get n = { before.get n with next := next, prev := prev, position := position }
  same : ∀ n, ¬ changed n → after.get n = before.get n

namespace Rewired

variable {before middle after : Heap} {changed : NodeId → Prop}

theorem refl (heap : Heap) (changed : NodeId → Prop) : Rewired heap heap changed :=
  ⟨rfl, fun _ => ⟨_, _, _, rfl⟩, fun _ _ => rfl⟩

theorem trans (first : Rewired before middle changed) (second : Rewired middle after changed) :
    Rewired before after changed where
  size := second.size.trans first.size
  cell := by
    intro n
    rcases first.cell n with ⟨next, prev, position, here⟩
    rcases second.cell n with ⟨next', prev', position', there⟩
    refine ⟨next', prev', position', ?_⟩
    rw [there, here]
  same := fun n other => (second.same n other).trans (first.same n other)

theorem modify (heap : Heap) {n : NodeId} (here : changed n) {change : XmlNode → XmlNode}
    (place : Exists fun next => Exists fun prev => Exists fun position =>
      change (heap.get n) = { heap.get n with next := next, prev := prev, position := position }) :
    Rewired heap (heap.modify n change) changed where
  size := rfl
  cell := by
    intro m
    by_cases same : m = n
    · rw [same, Arena.modify_get_same]
      exact place
    · rw [Arena.modify_get_of_ne _ _ same]
      exact ⟨_, _, _, rfl⟩
  same := by
    intro m other
    apply Arena.modify_get_of_ne
    rintro rfl
    exact other here

theorem setPositions (sources : List (NodeId × Nat)) (heap : Heap)
    (known : ∀ s ∈ sources, changed s.1) :
    Rewired heap (sources.foldl
      (fun heap node => heap.modify node.1 fun cell => { cell with position := node.2 }) heap)
        changed ∧
    ∀ n, Exists fun position => (sources.foldl
      (fun heap node => heap.modify node.1 fun cell => { cell with position := node.2 }) heap).get n =
        { heap.get n with position := position } := by
  induction sources generalizing heap with
  | nil => exact ⟨.refl heap changed, fun n => ⟨_, rfl⟩⟩
  | cons s rest inductionHypothesis =>
      have first : Rewired heap (heap.modify s.1 fun cell => { cell with position := s.2 }) changed :=
        .modify heap (known s List.mem_cons_self) ⟨_, _, _, rfl⟩
      have later := inductionHypothesis (heap.modify s.1 fun cell => { cell with position := s.2 })
        fun s at_ => known s (List.mem_cons_of_mem _ at_)
      refine ⟨first.trans later.1, fun n => ?_⟩
      rcases later.2 n with ⟨position, here⟩
      by_cases same : n = s.1
      · refine ⟨position, here.trans ?_⟩
        rw [same, Arena.modify_get_same]
      · refine ⟨position, here.trans ?_⟩
        rw [Arena.modify_get_of_ne _ _ same]

theorem copyOf (rewired : Rewired before after changed) {src n : NodeId}
    (copy : CopyOf before src n) : CopyOf after src n := by
  rcases rewired.cell n with ⟨next, prev, position, here⟩
  rcases rewired.cell src with ⟨next', prev', position', there⟩
  constructor
  · exact copy.older
  · rw [rewired.size]
    exact copy.made
  · rw [here, there]
    exact copy.type
  · rw [here, there]
    exact copy.name
  · rw [here, there]
    exact copy.content
  · rw [here, there]
    exact copy.parent
  · rw [here, there]
    exact copy.children
  · rw [here, there]
    exact copy.attributes
  · rw [here]
    exact copy.original

/-- Copies stand for the same nodes. -/
theorem origin_eq (rewired : Rewired before after changed) (n : NodeId) :
    origin after n = origin before n := by
  have steps : ∀ fuel n, originAfter fuel after n = originAfter fuel before n := by
    intro fuel
    induction fuel with
    | zero => exact fun _ => rfl
    | succ fuel inductionHypothesis =>
        intro n
        rcases rewired.cell n with ⟨next, prev, position, here⟩
        unfold originAfter
        rw [here]
        simp only
        cases (before.get n).original with
        | none => rfl
        | some src => exact inductionHypothesis src
  exact steps n n

theorem item_eq (rewired : Rewired before after changed) (n : NodeId) :
    item after n = item before n := by
  rcases rewired.cell n with ⟨next, prev, position, here⟩
  unfold item
  rw [rewired.origin_eq n, here]

end Rewired

/-- A region stays one where the lists in it are linked anew, away from the
documents. -/
theorem Region.rewire {before after : Heap} {inside region grown changed : NodeId → Prop}
    (closed : Region before inside grown) (documents : Region before inside region)
    (larger : ∀ n, region n → grown n) (rewired : Rewired before after changed)
    (apart : ∀ n, changed n → ¬ region n)
    (next : ∀ {n m}, grown n → (after.get n).next = some m → grown m)
    (prev : ∀ {n m}, grown n → (after.get n).prev = some m → grown m) : Region after inside grown := by
  have kept := documents.keep (Nat.le_of_eq rewired.size.symm) fun n member =>
    rewired.same n fun here => apart n here member
  constructor
  · exact kept.linked
  · intro n member
    rw [rewired.size]
    exact closed.bound member
  · exact closed.document
  · exact next
  · exact prev
  · intro n src member link
    rcases rewired.cell n with ⟨next, prev, position, here⟩
    rw [here] at link
    have copy := closed.copy member link
    exact ⟨copy.1, rewired.copyOf copy.2⟩
  · intro n member link
    rcases rewired.cell n with ⟨next, prev, position, here⟩
    rw [here] at link
    apply (closed.source member link).imp_right
    intro attribute_
    constructor <;> rw [here]
    · exact attribute_.type
    · exact attribute_.children
    · exact attribute_.attributes
    · exact attribute_.parent
  · exact fun member chained a at_ => larger a (kept.attributes member chained a at_)

/-- The two links between a list and the list that begins with `head`. -/
def joinLists (heap : Heap) (prev : Ptr) (head : NodeId) : Heap :=
  match prev with
  | none => heap
  | some _ => (setNext heap prev (some head)).modify head fun cell => { cell with prev := prev }

theorem joinLists_spec (heap : Heap) {prev : Ptr} {head : NodeId} {new : List NodeId}
    (isHead : head ∈ new) (apart : ∀ p, prev = some p → p ∉ new) :
    Rewired heap (joinLists heap prev head) (fun n => prev = some n ∨ n ∈ new) ∧
      (∀ n, ((joinLists heap prev head).get n).next =
        if prev = some n then some head else (heap.get n).next) ∧
      ∀ n, ((joinLists heap prev head).get n).prev = (heap.get n).prev ∨
        n ∈ new ∧ ((joinLists heap prev head).get n).prev = prev := by
  unfold joinLists
  cases prev with
  | none =>
      refine ⟨.refl _ _, fun n => ?_, fun n => .inl rfl⟩
      rw [if_neg nofun]
  | some p =>
      have different : head ≠ p := fun same => apart p rfl (same ▸ isHead)
      simp only [setNext]
      refine ⟨.trans (.modify heap (.inl rfl) ⟨_, _, _, rfl⟩) (.modify _ (.inr isHead) ⟨_, _, _, rfl⟩),
        fun n => ?_, fun n => ?_⟩
      · by_cases onHead : n = head
        · subst onHead
          rw [Arena.modify_get_same, Arena.modify_get_of_ne _ _ different,
            if_neg fun same => different (Option.some.inj same).symm]
        · rw [Arena.modify_get_of_ne _ _ onHead]
          by_cases onLast : n = p
          · subst onLast
            rw [Arena.modify_get_same, if_pos rfl]
          · rw [Arena.modify_get_of_ne _ _ onLast, if_neg fun same =>
              onLast (Option.some.inj same).symm]
      · by_cases onHead : n = head
        · subst onHead
          rw [Arena.modify_get_same]
          exact .inr ⟨isHead, rfl⟩
        · rw [Arena.modify_get_of_ne _ _ onHead]
          by_cases onLast : n = p
          · subst onLast
            rw [Arena.modify_get_same]
            exact .inl rfl
          · rw [Arena.modify_get_of_ne _ _ onLast]
            exact .inl rfl

/-- A list is linked behind the node `prev`. -/
theorem xmlAddSiblings_spec {heap after : Heap} {prev src last : Ptr} {pos pos' : Nat}
    {new : List NodeId} (listed : siblings heap src = some new)
    (apart : ∀ p, prev = some p → p ∉ new)
    (added : xmlAddSiblings heap prev src pos = some (after, last, pos')) :
    Rewired heap after (fun n => prev = some n ∨ n ∈ new) ∧
      last = new.getLast?.or prev ∧
      (∀ n, (after.get n).next = if prev = some n ∧ src.isSome then src else (heap.get n).next) ∧
      ∀ n, (after.get n).prev = (heap.get n).prev ∨ n ∈ new ∧ (after.get n).prev = prev := by
  have chain := (follow_eq_some_iff.mp listed).1
  cases src with
  | none =>
      cases chain
      cases added
      refine ⟨.refl _ _, ?_, ?_, fun n => .inl rfl⟩
      · cases prev <;> rfl
      · intro n
        rw [if_neg]
        exact fun both => Bool.false_ne_true both.2
  | some head =>
      have isHead : head ∈ new := List.mem_of_mem_head? chain.start_eq.symm
      have links := joinLists_spec heap isHead apart
      have still : siblings (joinLists heap prev head) (some head) = some new := by
        apply follow_eq_some_iff.mpr
        constructor
        · apply chain.congr
          intro n at_
          rw [links.2.1 n, if_neg fun same => apart n same at_]
        · rw [links.1.size]
          exact (follow_eq_some_iff.mp listed).2
      change (do
        let nodes ← siblings (joinLists heap prev head) (some head)
        some ((nodes.dropLast.zipIdx (pos + 1)).foldl
          (fun (heap : Heap) (node : NodeId × Nat) => heap.modify node.1 fun cell => { cell with position := node.2 })
          (joinLists heap prev head), nodes.getLast?, pos + nodes.dropLast.length)) = _ at added
      rw [still, Option.bind_eq_bind, Option.bind_some] at added
      cases added
      have inNew : ∀ s ∈ new.dropLast.zipIdx (pos + 1), prev = some s.1 ∨ s.1 ∈ new := fun s at_ =>
        .inr ((List.dropLast_subset new) (List.fst_mem_of_mem_zipIdx at_))
      have placed := @Rewired.setPositions (fun n => prev = some n ∨ n ∈ new) _
        (joinLists heap prev head) inNew
      refine ⟨links.1.trans placed.1, ?_, fun n => ?_, fun n => ?_⟩
      · cases new with
        | nil => cases isHead
        | cons node rest =>
            rw [List.getLast?_cons]
            rfl
      · rcases placed.2 n with ⟨position, here⟩
        rw [here]
        refine (links.2.1 n).trans ?_
        simp only [Option.isSome_some, and_true]
      · rcases placed.2 n with ⟨position, here⟩
        rw [here]
        exact links.2.2 n

/-! ## The operands one after the other -/

/-- A memory that has kept the nodes of a region. -/
structure Later (heap : Heap) (region : NodeId → Prop) (memory : Heap) : Prop where
  grows : heap.size ≤ memory.size
  same : ∀ n, region n → memory.get n = heap.get n

/-- What a union has gathered: a list of new nodes of a region, from its head
`selection` to its end `tmp`. -/
structure Gathered {Num : Type} (env : Env Num) (heap : Heap) (inside region grown : NodeId → Prop)
    (tmp selection : Ptr) (nodes : List NodeId) : Prop where
  setting : Setting env heap inside grown
  documents : Region heap inside region
  larger : ∀ n, region n → grown n
  chain : Siblings heap selection nodes
  last : tmp = nodes.getLast?
  inGrown : ∀ n ∈ nodes, grown n
  apart : ∀ n ∈ nodes, ¬ region n

section Gathering

variable {Num : Type} {env : Env Num} {heap middle after : Heap}
  {inside region grown later : NodeId → Prop} {tmp selection : Ptr} {nodes new : List NodeId}

/-- The evaluation of another operand leaves the list as it is. -/
theorem Gathered.evaluated (gathered : Gathered env heap inside region grown tmp selection nodes)
    (allocates : Allocates env.locals heap middle) {value : RValue Num}
    (found : Found env middle inside grown later value new) :
    Gathered env middle inside region later tmp selection nodes where
  setting := found.setting
  documents := gathered.documents.allocates (fun l here member =>
    gathered.setting.apart l here (gathered.larger l member)) allocates
  larger := fun n member => found.old n (gathered.larger n member)
  chain := by
    apply gathered.chain.congr
    intro n at_
    have known := gathered.inGrown n at_
    rw [allocates.same n (gathered.setting.closed.bound known) fun here =>
      gathered.setting.apart n here known]
  last := gathered.last
  inGrown := fun n at_ => found.old n (gathered.inGrown n at_)
  apart := gathered.apart

/-- Its list is linked behind. -/
theorem Gathered.join (gathered : Gathered env middle inside region later tmp selection nodes)
    {src last : Ptr} {pos pos' : Nat} (listed : siblings middle src = some new)
    (inLater : ∀ n ∈ new, later n) (fresh : ∀ n ∈ new, n ∉ nodes ∧ ¬ region n)
    (added : xmlAddSiblings middle tmp src pos = some (after, last, pos')) :
    Gathered env after inside region later last (if tmp = none ∧ src.isSome then src else selection)
        (nodes ++ new) ∧
      (∀ n, item after n = item middle n) ∧ Later middle region after := by
  have newChain := (follow_eq_some_iff.mp listed).1
  have tmpNode : ∀ p, tmp = some p → p ∈ nodes := fun p here =>
    List.mem_of_getLast? (gathered.last.symm.trans here)
  rcases xmlAddSiblings_spec listed (fun p here at_ => (fresh p at_).1 (tmpNode p here)) added with
    ⟨rewired, ends, next, prev⟩
  have away : ∀ n, (tmp = some n ∨ n ∈ new) → ¬ region n := by
    rintro n (here | at_)
    · exact gathered.apart n (tmpNode n here)
    · exact (fresh n at_).2
  have closed : Region after inside later := by
    apply gathered.setting.closed.rewire gathered.documents gathered.larger rewired away
    · intro n m member link
      rw [next n] at link
      split at link
      · exact inLater m (List.mem_of_mem_head? (newChain.start_eq ▸ link))
      · exact gathered.setting.closed.next member link
    · intro n m member link
      rcases prev n with same | ⟨_, same⟩
      · rw [same] at link
        exact gathered.setting.closed.prev member link
      · rw [same] at link
        exact gathered.inGrown m (tmpNode m link)
  have kept : Later middle region after := ⟨Nat.le_of_eq rewired.size.symm, fun n member =>
    rewired.same n fun here => away n here member⟩
  refine ⟨?_, rewired.item_eq, kept⟩
  constructor
  · constructor
    · exact closed
    · exact gathered.setting.root
    · intro l here
      rw [rewired.size]
      exact gathered.setting.old l here
    · exact gathered.setting.apart
  · exact gathered.documents.keep kept.grows kept.same
  · exact gathered.larger
  · have newStill : Siblings after src new := by
      apply newChain.congr
      intro n at_
      rw [next n, if_neg]
      exact fun both => (fresh n at_).1 (tmpNode n both.1)
    cases nodes with
    | nil =>
        cases gathered.chain
        have none_ : tmp = none := gathered.last
        cases src with
        | none =>
            rw [ite_self]
            exact newStill
        | some head =>
            rw [if_pos ⟨none_, rfl⟩]
            exact newStill
    | cons node rest =>
        have some_ : tmp = some ((node :: rest).getLast (List.cons_ne_nil node rest)) :=
          gathered.last.trans (List.getLast?_eq_some_getLast _)
        rw [if_neg fun both => by rw [some_] at both; cases both.1]
        cases src with
        | none =>
            cases newChain
            rw [List.append_nil]
            apply gathered.chain.congr
            intro n _
            rw [next n, if_neg]
            exact fun both => Bool.false_ne_true both.2
        | some head =>
            have begins : some head = new.head? := newChain.start_eq
            apply chain_append gathered.chain (gathered.last.symm.trans some_)
            · intro n _ other
              rw [next n, if_neg]
              exact fun both => other (Option.some.inj (some_.symm.trans both.1)).symm
            · rw [next, if_pos ⟨some_, rfl⟩, begins]
            · rw [← begins]
              exact newStill
  · rw [ends, gathered.last, List.getLast?_append]
  · intro n at_
    exact (List.mem_append.mp at_).elim (gathered.inGrown n) (inLater n)
  · intro n at_
    exact (List.mem_append.mp at_).elim (gathered.apart n) fun here => (fresh n here).2

end Gathering

/-! ## Unions -/

section Paths

variable {Num : Type} [Double Num] {env : Env Num} {depth : Nat}

/-- The host has not put anything in the place of `text()` and `node()`. -/
def Env.OwnTests (env : Env Num) : Prop :=
  env.perlFunctions (lit "text") = none ∧ env.perlFunctions (lit "node") = none

/-- The value is a node-set, or NULL, which unions pass over. -/
def IsSet (value : RValue Num) : Prop := value = .null ∨ Exists fun set => value = .nodeset set

/-- Every step has a node-set as its value, or NULL. -/
theorem follows_isSet {head : ExprNode} (follows : Follows head) {run : Expr → Eval Num}
    {args : List (Operand Num)} {current : NodeId} {heap after : Heap} {value : RValue Num}
    (done : executeNode env run head args current heap = some (value, after)) : IsSet value := by
  rcases follows with axis | attr | attrAll
  · rw [executeNode_axis env run axis] at done
    unfold xpathSelectCommon at done
    cases args with
    | nil =>
        rcases Option.bind_eq_some_iff.mp done with ⟨_, _, same⟩
        cases same
        exact .inr ⟨_, rfl⟩
    | cons operand rest =>
        rcases Option.bind_eq_some_iff.mp done with ⟨⟨first, middle⟩, _, done⟩
        cases first with
        | nodeset set =>
            rcases Option.bind_eq_some_iff.mp done with ⟨_, _, done⟩
            rcases Option.bind_eq_some_iff.mp done with ⟨_, _, same⟩
            cases same
            exact .inr ⟨_, rfl⟩
        | null | bool | int | number | string =>
            cases done
            exact .inr ⟨_, rfl⟩
  · unfold executeNode attributeStep at done
    rw [attr] at done
    cases args with
    | nil =>
        rcases Option.bind_eq_some_iff.mp done with ⟨found, _, same⟩
        cases found with
        | none =>
            cases same
            exact .inl rfl
        | some value =>
            cases same
            exact .inr ⟨_, rfl⟩
    | cons operand rest =>
        rcases Option.bind_eq_some_iff.mp done with ⟨⟨first, middle⟩, _, done⟩
        cases first with
        | nodeset set =>
            rcases Option.bind_eq_some_iff.mp done with ⟨_, _, done⟩
            rcases Option.bind_eq_some_iff.mp done with ⟨_, _, same⟩
            cases same
            exact .inr ⟨_, rfl⟩
        | null | bool | int | number | string =>
            cases done
            exact .inl rfl
  · unfold executeNode allAttributesStep at done
    rw [attrAll] at done
    cases args with
    | nil =>
        rcases Option.bind_eq_some_iff.mp done with ⟨_, _, same⟩
        cases same
        exact .inr ⟨_, rfl⟩
    | cons operand rest =>
        rcases Option.bind_eq_some_iff.mp done with ⟨⟨first, middle⟩, _, done⟩
        cases first with
        | nodeset set =>
            rcases Option.bind_eq_some_iff.mp done with ⟨_, _, done⟩
            rcases Option.bind_eq_some_iff.mp done with ⟨_, _, same⟩
            cases same
            exact .inr ⟨_, rfl⟩
        | null | bool | int | number | string =>
            cases done
            exact .inr ⟨_, rfl⟩

theorem call_isSet (tests : env.OwnTests) {name : Bytes} (known : name = lit "text" ∨ name = lit "node")
    {run : Expr → Eval Num} {args : List (Operand Num)} {current : NodeId} {heap after : Heap}
    {value : RValue Num} (done : xpathCallDispatcher env run name args current heap =
      some (value, after)) : IsSet value := by
  have children : ∀ test : XmlNode → Bool,
      (xfChildren test current heap : Option (RValue Num × Heap)) = some (value, after) →
      IsSet value := by
    intro test found
    rcases Option.bind_eq_some_iff.mp found with ⟨_, _, same⟩
    cases same
    exact .inr ⟨_, rfl⟩
  unfold xpathCallDispatcher at done
  rcases known with rfl | rfl
  · rw [tests.1] at done
    simp only at done
    rw [if_neg (by decide), if_pos trivial] at done
    exact children _ done
  · rw [tests.2] at done
    simp only at done
    rw [if_neg (by decide), if_neg (by decide), if_pos trivial] at done
    exact children _ done

/-- So does every path. -/
theorem Path.isSet (tests : env.OwnTests) {text : Bytes} {tree : Expr} (path : Path text tree)
    {current : NodeId} {heap after : Heap} {value : RValue Num}
    (done : xpathExecuteScalar env depth tree current heap = some (value, after)) : IsSet value := by
  have ofStep : ∀ {step : Step} {children : Expr}, step.Valid →
      xpathExecuteScalar env depth (.node step.head children .null) current heap = some (value, after) →
      IsSet value := by
    intro step children valid done
    by_cases call : step = .text ∨ step = .node
    · rcases call with rfl | rfl
      · exact call_isSet tests (.inl rfl) done
      · exact call_isSet tests (.inr rfl) done
    · rw [not_or] at call
      exact follows_isSet (step.follows valid call) done
  have ofDeep : ∀ {before : Expr},
      xpathExecuteScalar env depth (descendantStep before) current heap = some (value, after) →
      IsSet value := by
    intro before done
    unfold descendantStep at done
    rw [xpathExecuteScalar_node] at done
    exact follows_isSet (.inl rfl) done
  cases path with
  | first step valid rooted =>
      unfold Step.first at done
      split at done
      · exact ofStep valid done
      · exact ofStep valid done
  | firstDeep step valid _ => exact ofStep valid done
  | step _ step valid => exact ofStep valid done
  | deep _ step valid _ => exact ofStep valid done
  | firstDeepAll => exact ofDeep done
  | deepAll _ => exact ofDeep done
  | filter path _ built =>
      rcases path.alone with ⟨head, children, rfl⟩
      cases built
      rw [xpathExecuteScalar_filter] at done
      rcases Option.bind_eq_some_iff.mp done with ⟨⟨first, middle⟩, _, done⟩
      cases first with
      | nodeset set =>
          rcases Option.bind_eq_some_iff.mp done with ⟨_, _, same⟩
          cases same
          exact .inr ⟨_, rfl⟩
      | null | bool | int | number | string =>
          cases done
          exact .inr ⟨_, rfl⟩

/-- An operand of a union, and what it has to keep to. -/
structure UnionOperand (env : Env Num) (depth : Nat) (tree : Expr) (operand : Operand Num) : Prop where
  run : operand.run = xpathExecuteScalar env depth tree
  stays : Stays env (xpathExecuteScalar env depth tree)
  isSet : ∀ {current heap value after},
    xpathExecuteScalar env depth tree current heap = some (value, after) → IsSet value

/-- The items of every operand, each in a memory that has kept the region. -/
def Parts (env : Env Num) (depth : Nat) (current : NodeId) (heap : Heap) (region : NodeId → Prop)
    (trees : List Expr) (lists : List (List Item)) : Prop :=
  List.Forall₂ (fun tree items => Exists fun memory => Later heap region memory ∧
    itemsOf env depth tree current memory = some items) trees lists

theorem Parts.earlier {current : NodeId} {heap memory : Heap} {region : NodeId → Prop}
    {trees : List Expr} {lists : List (List Item)}
    (parts : Parts env depth current memory region trees lists) (later : Later heap region memory) :
    Parts env depth current heap region trees lists := by
  apply List.Forall₂.imp _ parts
  rintro tree items ⟨last, kept, yielded⟩
  exact ⟨last, ⟨Nat.le_trans later.grows kept.grows, fun n known =>
    (kept.same n known).trans (later.same n known)⟩, yielded⟩

omit [Double Num] in
theorem Gathered.items {heap middle : Heap} {inside region grown : NodeId → Prop}
    {tmp selection : Ptr} {nodes : List NodeId}
    (gathered : Gathered env heap inside region grown tmp selection nodes)
    (allocates : Allocates env.locals heap middle) :
    nodes.map (item middle) = nodes.map (item heap) := by
  apply List.map_congr_left
  intro n at_
  apply gathered.setting.closed.item_keep allocates.grows _ (gathered.inGrown n at_)
  intro m known
  exact allocates.same m (gathered.setting.closed.bound known) fun here =>
    gathered.setting.apart m here known

/-- The loop of a union. -/
theorem unionOperands_gathered {trees : List Expr} {operands : List (Operand Num)}
    (each : List.Forall₂ (UnionOperand env depth) trees operands) {current : NodeId}
    {heap after : Heap} {inside region grown : NodeId → Prop} {tmp selection set : Ptr}
    {nodes : List NodeId} {pos : Nat} (member : region current)
    (gathered : Gathered env heap inside region grown tmp selection nodes)
    (done : unionOperands operands current heap tmp selection pos = some (set, after)) :
    Exists fun grown' => Exists fun tmp' => Exists fun nodes' => Exists fun lists =>
      Gathered env after inside region grown' tmp' set nodes' ∧
      nodes'.map (item after) = nodes.map (item heap) ++ List.flatten lists ∧
      Parts env depth current heap region trees lists := by
  induction each generalizing heap grown tmp selection nodes pos with
  | nil =>
      cases done
      exact ⟨grown, tmp, nodes, [], gathered, (List.append_nil _).symm, .nil⟩
  | @cons tree operand trees operands here others inductionHypothesis =>
      rcases Option.bind_eq_some_iff.mp done with ⟨⟨value, middle⟩, begun, done⟩
      rw [here.run] at begun
      have outcome := xpathExecuteScalar_framed env depth _ _ _ _ _ gathered.setting.old begun
      have allocates := outcome.allocates
      rcases here.stays.found gathered.setting (gathered.larger _ member) begun with
        ⟨later, new, found⟩
      have moved := gathered.evaluated allocates found
      have kept : ∀ n, region n → middle.get n = heap.get n := fun n known =>
        allocates.same n (gathered.documents.bound known) fun same =>
          gathered.setting.apart n same (gathered.larger n known)
      have listedHere : itemsOf env depth tree current heap = some (new.map (item middle)) := by
        unfold itemsOf
        rw [begun]
        simp only [Option.bind_eq_bind, Option.bind_some]
        rw [found.listed]
        rfl
      have first : Exists fun memory => Later heap region memory ∧
          itemsOf env depth tree current memory = some (new.map (item middle)) :=
        ⟨heap, ⟨Nat.le_refl _, fun _ _ => rfl⟩, listedHere⟩
      rcases here.isSet begun with rfl | ⟨src, rfl⟩
      · -- NULL, an attribute that is not there
        have none_ : new = [] := (Option.some.inj found.listed).symm
        rcases inductionHypothesis moved done with ⟨grown', tmp', nodes', lists, last, items, parts⟩
        refine ⟨grown', tmp', nodes', new.map (item middle) :: lists, last, ?_, .cons first ?_⟩
        · rw [items, gathered.items allocates, none_]
          rfl
        · exact parts.earlier ⟨allocates.grows, kept⟩
      · rcases Option.bind_eq_some_iff.mp done with ⟨added, found', done⟩
        cases found'
        rcases Option.bind_eq_some_iff.mp done with ⟨⟨joined, last, pos'⟩, added, done⟩
        have freshAll := allocates.siblings_fresh (outcome.fresh src rfl) found.listed
        have notOld : ∀ n ∈ new, ¬ grown n := fun n at_ known =>
          absurd (gathered.setting.closed.bound known) (Nat.not_lt.mpr (freshAll n at_).1)
        have linked := moved.join found.listed found.inRegion (fun n at_ =>
          ⟨fun old => notOld n at_ (gathered.inGrown n old), fun old =>
            notOld n at_ (gathered.larger n old)⟩) added
        rcases inductionHypothesis linked.1 done with ⟨grown', tmp', nodes', lists, last, items, parts⟩
        refine ⟨grown', tmp', nodes', new.map (item middle) :: lists, last, ?_, .cons first ?_⟩
        · have both : (nodes ++ new).map (item joined) = nodes.map (item heap) ++ new.map (item middle) := by
            rw [show item joined = item middle from funext linked.2.1, List.map_append,
              gathered.items allocates]
          rw [items, both, List.flatten_cons, List.append_assoc]
        · have joinedKept := linked.2.2
          exact parts.earlier ⟨Nat.le_trans allocates.grows joinedKept.grows, fun n known =>
            (joinedKept.same n known).trans (kept n known)⟩

end Paths

/-! ## What they are compiled to -/

/-- Paths with bars between them. -/
def unionText : List Bytes → Bytes
  | [] => []
  | [text] => text
  | text :: rest => text ++ '|'.toUInt8 :: unionText rest

theorem furtherOperands_paths {texts : List Bytes} {trees : List Expr}
    (paths : List.Forall₂ Path texts trees) (some_ : texts ≠ []) {depth : Nat}
    (deep : ∀ text ∈ texts, text.length ≤ depth) {fuel : Nat} (enough : texts.length < fuel) :
    furtherOperands (doNodeExpr (doOrExpr depth)) (lit "|") fuel (unionText texts) =
      some (trees, []) := by
  induction paths generalizing fuel with
  | nil => exact absurd rfl some_
  | @cons text tree texts trees path others inductionHypothesis =>
      cases fuel with
      | zero => cases enough
      | succ fuel =>
          have notNull : tree ≠ .null := by
            rcases path.alone with ⟨_, _, rfl⟩
            exact nofun
          have short := deep text List.mem_cons_self
          cases others with
          | nil =>
              have read := path.reads.doNodeExpr short (.inl rfl : Ends [])
              rw [List.append_nil] at read
              unfold furtherOperands
              rw [show unionText [text] = text from rfl, read]
              simp only [Option.bind_eq_bind, Option.bind_some, if_neg notNull]
              rfl
          | @cons text' tree' texts trees path' others =>
              have ends : Ends ('|'.toUInt8 :: unionText (text' :: texts)) := .inr (.inr rfl)
              have read := path.reads.doNodeExpr short ends
              have bar : matchAt (lit "|") (skipSpaces ('|'.toUInt8 :: unionText (text' :: texts))) =
                  some (unionText (text' :: texts)) := by
                rw [skipSpaces_of (show xIsWs (byteAt ('|'.toUInt8 :: _)) = false by
                  change xIsWs '|'.toUInt8 = false
                  decide)]
                exact matchAt_append (lit "|") _
              have further := inductionHypothesis (List.cons_ne_nil _ _)
                (fun t at_ => deep t (List.mem_cons_of_mem _ at_)) (Nat.lt_of_succ_lt_succ enough)
              unfold furtherOperands
              rw [show unionText (text :: text' :: texts) =
                text ++ '|'.toUInt8 :: unionText (text' :: texts) from rfl, read]
              simp only [Option.bind_eq_bind, Option.bind_some, if_neg notNull, bar]
              rw [further]
              rfl

theorem link_paths {texts : List Bytes} {trees : List Expr} (paths : List.Forall₂ Path texts trees) :
    Exists fun operands => Expr.link trees = some operands := by
  induction paths with
  | nil => exact ⟨.null, rfl⟩
  | cons path _ inductionHypothesis =>
      rcases inductionHypothesis with ⟨rest, linked⟩
      rcases path.alone with ⟨head, children, rfl⟩
      refine ⟨.node head children rest, ?_⟩
      unfold Expr.link
      rw [linked]
      rfl

/-- What a union begins with. -/
theorem unionText_cons (text : Bytes) (texts : List Bytes) :
    Exists fun more => unionText (text :: texts) = text ++ more ∧ Ends more := by
  cases texts with
  | nil => exact ⟨[], (List.append_nil text).symm, .inl rfl⟩
  | cons text' texts => exact ⟨_, rfl, .inr (.inr rfl)⟩

theorem unionText_length {texts : List Bytes} (some_ : ∀ text ∈ texts, text ≠ []) :
    texts.length ≤ (unionText texts).length ∧
      ∀ text ∈ texts, text.length ≤ (unionText texts).length := by
  induction texts with
  | nil => exact ⟨Nat.le_refl 0, nofun⟩
  | cons text texts inductionHypothesis =>
      have here := List.length_pos_iff.mpr (some_ text List.mem_cons_self)
      have later := inductionHypothesis fun t at_ => some_ t (List.mem_cons_of_mem _ at_)
      cases texts with
      | nil =>
          refine ⟨here, fun t at_ => ?_⟩
          rw [List.mem_singleton.mp at_]
          exact Nat.le_refl _
      | cons text' texts =>
          have whole : (unionText (text :: text' :: texts)).length =
              text.length + ((unionText (text' :: texts)).length + 1) := by
            rw [show unionText (text :: text' :: texts) =
              text ++ '|'.toUInt8 :: unionText (text' :: texts) from rfl, List.length_append,
              List.length_cons]
          rw [whole]
          refine ⟨?_, fun t at_ => ?_⟩
          · rw [List.length_cons]
            omega
          · rcases List.mem_cons.mp at_ with rfl | behind
            · exact Nat.le_add_right _ _
            · have short := later.2 t behind
              omega

theorem Path.text_ne_nil {texts : List Bytes} {trees : List Expr}
    (paths : List.Forall₂ Path texts trees) : ∀ text ∈ texts, text ≠ [] := by
  intro text at_
  rcases List.forall₂_iff_get.mp paths with ⟨length, all⟩
  rcases List.getElem_of_mem at_ with ⟨i, small, rfl⟩
  exact (all i small (length ▸ small)).ne_nil

theorem doUnionExpr_paths {text text' : Bytes} {head : ExprNode} {children tree' : Expr}
    {texts : List Bytes} {trees : List Expr} (path : Path text (.node head children .null))
    (both : List.Forall₂ Path (text' :: texts) (tree' :: trees)) {rest : Expr}
    (linked : Expr.link (tree' :: trees) = some rest) {depth : Nat}
    (deep : ∀ t ∈ text :: text' :: texts, t.length ≤ depth) :
    doUnionExpr (doOrExpr depth) (text ++ '|'.toUInt8 :: unionText (text' :: texts)) =
      some (.node { type := .union } (.node head children rest) .null, []) := by
  have ends : Ends ('|'.toUInt8 :: unionText (text' :: texts)) := .inr (.inr rfl)
  have space := path.reads.begins _ ends.boundary
  have read := path.reads.doNodeExpr (deep text List.mem_cons_self) ends
  have still : skipSpaces ('|'.toUInt8 :: unionText (text' :: texts)) =
      '|'.toUInt8 :: unionText (text' :: texts) := skipSpaces_of ends.boundary.space
  have bar : matchAt (lit "|") ('|'.toUInt8 :: unionText (text' :: texts)) =
      some (unionText (text' :: texts)) := matchAt_append (lit "|") _
  have behind : skipSpaces (unionText (text' :: texts)) = unionText (text' :: texts) := by
    rcases unionText_cons text' texts with ⟨more, same, moreEnds⟩
    rw [same]
    cases both with
    | cons path' _ => exact skipSpaces_of (path'.reads.begins more moreEnds.boundary)
  have length := (unionText_length (Path.text_ne_nil both)).1
  have others := furtherOperands_paths both (List.cons_ne_nil _ _)
    (fun t at_ => deep t (List.mem_cons_of_mem _ at_)) (Nat.lt_succ_of_le length)
  unfold doUnionExpr manyOperands
  rw [skipSpaces_of space, read]
  simp only [Option.bind_eq_bind, Option.bind_some, still, bar, behind]
  rw [others]
  simp only [Option.bind_some, linked]
  rfl

/-- Paths with bars between them are compiled to a union of their trees. -/
theorem compile_union {texts : List Bytes} {trees : List Expr}
    (paths : List.Forall₂ Path texts trees) (several : 2 ≤ texts.length) :
    Exists fun operands => Expr.link trees = some operands ∧
      xpathCompile (unionText texts) = some (.node { type := .union } operands .null) := by
  cases paths with
  | nil => cases several
  | @cons text tree texts trees path others =>
      cases others with
      | nil => cases Nat.lt_irrefl 1 several
      | @cons text' tree' texts trees path' others =>
          have both := List.Forall₂.cons path' others
          have known := unionText_length (Path.text_ne_nil (.cons path both))
          rcases path.alone with ⟨head, children, rfl⟩
          rcases link_paths both with ⟨rest, linked⟩
          refine ⟨.node head children rest, ?_, ?_⟩
          · unfold Expr.link
            rw [linked]
            rfl
          · have ends : Ends ('|'.toUInt8 :: unionText (text' :: texts)) := .inr (.inr rfl)
            have parsed := doOrExpr_of_union (path.reads.begins _ ends.boundary)
              (path.reads.noCall _ ends.boundary) (doUnionExpr_paths path both linked known.2) (.inl rfl)
            exact congrArg (Option.map Prod.fst) parsed

/-- The operands are the evaluators of the trees. -/
theorem operandsAt_link {Num : Type} [Double Num] {env : Env Num} {depth : Nat} {texts : List Bytes}
    {trees : List Expr} (paths : List.Forall₂ Path texts trees) (tests : env.OwnTests)
    {operands : Expr} (linked : Expr.link trees = some operands) :
    List.Forall₂ (UnionOperand env depth) trees (operandsAt env depth operands) := by
  induction paths generalizing operands with
  | nil =>
      cases linked
      exact .nil
  | cons path others inductionHypothesis =>
      rcases Option.bind_eq_some_iff.mp linked with ⟨rest, behind, joined⟩
      rcases path.alone with ⟨head, children, rfl⟩
      cases joined
      refine .cons ⟨rfl, path.stays env depth, ?_⟩ (inductionHypothesis behind)
      intro current heap value after done
      exact path.isSet tests done

/-- A union yields what its operands yield, one behind the other. -/
theorem union_items {Num : Type} [Double Num] {env : Env Num} {depth : Nat} {heap : Heap}
    {inside region : NodeId → Prop} (setting : Setting env heap inside region) {current : NodeId}
    (member : region current) (tests : env.OwnTests) {texts : List Bytes} {trees : List Expr}
    (paths : List.Forall₂ Path texts trees) {operands : Expr}
    (linked : Expr.link trees = some operands) {items : List Item}
    (yielded : itemsOf env depth (.node { type := .union } operands .null) current heap = some items) :
    Exists fun lists => items = List.flatten lists ∧ Parts env depth current heap region trees lists := by
  unfold itemsOf at yielded
  rcases Option.bind_eq_some_iff.mp yielded with ⟨⟨value, after⟩, done, yielded⟩
  rcases Option.bind_eq_some_iff.mp yielded with ⟨nodes, listed, same⟩
  cases same
  rcases Option.bind_eq_some_iff.mp (show (unionOperands (operandsAt env depth operands) current heap
    none none 0).bind (fun result => some ((.nodeset result.1 : RValue Num), result.2)) =
      some (value, after) from done) with ⟨⟨set, last⟩, union, same⟩
  cases same
  have begun : Gathered env heap inside region region none none [] := by
    constructor
    · exact setting
    · exact setting.closed
    · exact fun _ known => known
    · exact .nil
    · rfl
    · exact nofun
    · exact nofun
  rcases unionOperands_gathered (operandsAt_link paths tests linked) member begun union with
    ⟨grown, tmp, nodes', lists, gathered, same, parts⟩
  have known : siblings last set = some nodes' :=
    siblings_of_chain gathered.chain fun n at_ => gathered.setting.closed.bound (gathered.inGrown n at_)
  rw [show members (.nodeset set : RValue Num) last = some nodes' from known] at listed
  cases listed
  exact ⟨lists, same, parts⟩

end TurboXSL
