import TurboXSL.Copies
import TurboXSL.Numbering
import TurboXSL.SortedVisits

namespace TurboXSL

open Library Parse

/-!
# What a visit leaves behind

The nodes of a selection are new, and sorting them touches nothing else.
`xsl:apply-templates` without `select` visits the children of its node
themselves: their sorting relinks and renumbers the document.
-/

/-- Behind a list of nodes whose links and positions may have been set,
everything is as it was. -/
structure Rearranged (locals : Ptr) (nodes : List NodeId) (before after : Heap) : Prop where
  grows : before.size ≤ after.size
  others : ∀ i < before.size, locals ≠ some i → i ∉ nodes → after.get i = before.get i
  members : ∀ i < before.size, locals ≠ some i → Exists fun prev => Exists fun next =>
    Exists fun position =>
      after.get i = { before.get i with prev := prev, next := next, position := position }

section Rearrangement

variable {locals : Ptr} {nodes : List NodeId} {before middle after : Heap}

theorem Rearranged.of_allocates (allocates : Allocates locals before after) :
    Rearranged locals nodes before after where
  grows := allocates.grows
  others := fun i small other _ => allocates.same i small other
  members := fun i small other => ⟨_, _, _, allocates.same i small other⟩

theorem Rearranged.trans (first : Rearranged locals nodes before middle)
    (second : Rearranged locals nodes middle after) : Rearranged locals nodes before after where
  grows := Nat.le_trans first.grows second.grows
  others := by
    intro i small other outside
    rw [second.others i (Nat.lt_of_lt_of_le small first.grows) other outside]
    exact first.others i small other outside
  members := by
    intro i small other
    rcases first.members i small other with ⟨prev, next, position, here⟩
    rcases second.members i (Nat.lt_of_lt_of_le small first.grows) other with
      ⟨prev', next', position', there⟩
    refine ⟨prev', next', position', ?_⟩
    rw [there, here]

theorem Rearranged.relink {sorted : List NodeId} (same : sorted.Perm nodes) (distinct : nodes.Nodup) :
    Rearranged locals nodes before (TurboXSL.relink before none 0 sorted) where
  grows := Nat.le_of_eq (relink_size before none 0 sorted).symm
  others := by
    intro i _ _ outside
    exact relink_get_of_not_mem fun member => outside (same.mem_iff.mp member)
  members := by
    intro i _ _
    by_cases member : i ∈ sorted
    · rcases List.append_of_mem member with ⟨front, rest, split⟩
      have here := relink_get before none 0 front
        (split ▸ same.nodup_iff.mpr distinct)
      rw [split]
      exact ⟨_, _, _, here⟩
    · exact ⟨_, _, _, relink_get_of_not_mem member⟩

end Rearrangement

section Visit

variable {Num : Type} [Double Num] {env : Env Num} {depth : Nat}

/-- A sort touches the nodes that it sorts. -/
theorem xpathSortSelection_rearranged {sort : SortChild} {heap after : Heap} {selection sorted : Ptr}
    {nodes : List NodeId} (old : Old env.locals heap) (listed : siblings heap selection = some nodes)
    (done : xpathSortSelection env depth heap selection sort = some (after, sorted)) :
    Rearranged env.locals nodes heap after := by
  rcases xpathSortSelection_spec old listed done with
    ⟨comparison, nodes', middle, _, sorts, allocates, rfl, _⟩
  split
  · exact .of_allocates (.refl env.locals heap)
  · exact (Rearranged.of_allocates allocates).trans
      (.relink (bubbleSort_perm sorts) (follow_eq_some_iff.mp listed).1.nodup)

/-- The list that a sort has linked, where there was something to sort. -/
theorem xpathSortSelection_linked {sort : SortChild} {heap after : Heap} {selection sorted : Ptr}
    {nodes nodes' : List NodeId} (old : Old env.locals heap)
    (listed : siblings heap selection = some nodes)
    (done : xpathSortSelection env depth heap selection sort = some (after, sorted))
    (relisted : siblings after sorted = some nodes') :
    nodes'.Perm nodes ∧ (nodes.length < 2 → after = heap ∧ nodes' = nodes) ∧
      (2 ≤ nodes.length → Exists fun middle => after = relink middle none 0 nodes') := by
  have distinct := (follow_eq_some_iff.mp listed).1.nodup
  rcases xpathSortSelection_spec old listed done with
    ⟨comparison, sortedNodes, middle, _, sorts, _, memory, head⟩
  have same := bubbleSort_perm sorts
  by_cases few : nodes.length < 2
  · rw [if_pos few] at memory
    rcases xpathSortSelection_siblings old listed done with ⟨_, found, _, sorts', relisted', _⟩
    rw [relisted] at relisted'
    cases relisted'
    have perm := bubbleSort_perm sorts'
    exact ⟨perm, fun _ => ⟨memory, eq_of_perm_of_few perm few⟩,
      fun many => absurd few (Nat.not_lt.mpr many)⟩
  · rw [if_neg few] at memory
    have chain : Siblings (relink middle none 0 sortedNodes) sortedNodes.head? sortedNodes :=
      relink_chain middle none 0 (same.nodup_iff.mpr distinct)
    have listedAfter := (follow_eq_some_iff.mp relisted).1
    rw [head, memory] at listedAfter
    have unique := listedAfter.unique chain
    exact ⟨unique ▸ same, fun less => absurd less few, fun _ => ⟨middle, unique ▸ memory⟩⟩

/-- What the sorts have made of the memory: the last of them has linked and
numbered the nodes, where there is more than one. -/
theorem sortSelection_rearranged {sorts : List SortChild} {heap after : Heap}
    {selection sorted : Ptr} {nodes nodes' : List NodeId} (old : Old env.locals heap)
    (listed : siblings heap selection = some nodes)
    (done : sortSelection env depth sorts heap selection = some (after, sorted))
    (relisted : siblings after sorted = some nodes') :
    Rearranged env.locals nodes heap after ∧ nodes'.Perm nodes ∧
      (sorts = [] ∨ nodes.length < 2 → after = heap ∧ nodes' = nodes) ∧
      (sorts ≠ [] → 2 ≤ nodes.length → Exists fun middle => after = relink middle none 0 nodes') := by
  induction sorts generalizing heap selection nodes with
  | nil =>
      cases done
      rw [listed] at relisted
      cases relisted
      exact ⟨.of_allocates (.refl env.locals _), .refl _, fun _ => ⟨rfl, rfl⟩,
        fun some_ => absurd rfl some_⟩
  | cons sort rest inductionHypothesis =>
      rcases Option.bind_eq_some_iff.mp done with ⟨⟨middle, next⟩, first, done⟩
      have touched := xpathSortSelection_rearranged old listed first
      have still : Old env.locals middle := fun l same => Nat.lt_of_lt_of_le (old l same) touched.grows
      rcases xpathSortSelection_siblings old listed first with ⟨_, sorted', _, _, relistedFirst, _⟩
      have step := xpathSortSelection_linked old listed first relistedFirst
      have further := inductionHypothesis still relistedFirst done
      have all : Rearranged env.locals nodes heap after := by
        refine touched.trans ⟨further.1.grows, ?_, further.1.members⟩
        intro i small other outside
        exact further.1.others i small other fun member => outside (step.1.mem_iff.mp member)
      refine ⟨all, further.2.1.trans step.1, ?_, ?_⟩
      · rintro (none_ | few)
        · cases none_
        · have here := step.2.1 few
          have there := further.2.2.1 (.inr (here.2 ▸ few))
          exact ⟨there.1.trans here.1, there.2.trans here.2⟩
      · intro _ many
        cases rest with
        | nil =>
            have there := further.2.2.1 (.inl rfl)
            rcases step.2.2 many with ⟨start, memory⟩
            exact ⟨start, there.1.trans (there.2 ▸ memory)⟩
        | cons another rest =>
            exact further.2.2.2 (List.cons_ne_nil _ _) (step.1.length_eq ▸ many)

/-! ## The document behind a visit -/

/-- The fields of a node that sorting could touch, and those it is told to keep. -/
structure SameLinks (before after : XmlNode) : Prop where
  children : after.children = before.children
  next : after.next = before.next
  prev : after.prev = before.prev
  parent : after.parent = before.parent
  position : after.position = before.position

/-- Every node of the documents is as it was. -/
def Unchanged (inside : NodeId → Prop) (before after : Heap) : Prop :=
  ∀ n, inside n → SameLinks (before.get n) (after.get n)

theorem SameLinks.of_eq {before after : XmlNode} (same : after = before) : SameLinks before after := by
  cases same
  exact ⟨rfl, rfl, rfl, rfl, rfl⟩

/-- The nodes carry the positions from one on. -/
def Numbered (heap : Heap) (nodes : List NodeId) : Prop :=
  ∀ i (small : i < nodes.length), (heap.get nodes[i]).position = i + 1

instance (heap : Heap) (nodes : List NodeId) : Decidable (Numbered heap nodes) :=
  inferInstanceAs (Decidable (∀ i (_ : i < nodes.length), _))

theorem Numbered.of_split {heap : Heap} {nodes front rest : List NodeId} {n : NodeId}
    (numbered : Numbered heap nodes) (split : nodes = front ++ n :: rest) :
    (heap.get n).position = front.length + 1 := by
  have small : front.length < nodes.length := by
    rw [split, List.length_append]
    exact Nat.lt_add_of_pos_right (Nat.succ_pos _)
  have here := numbered front.length small
  rwa [List.getElem_of_append split rfl] at here

/-- A list linked anew leaves the links as they were exactly where it is the
row it was and was numbered. -/
theorem sameLinks_relink_iff {heap middle : Heap} {owner : NodeId} {row sorted : List NodeId}
    {start : Ptr} (children : Row heap.links owner none start row) (same : sorted.Perm row)
    (fields : ∀ n ∈ row, Exists fun prev => Exists fun next => Exists fun position =>
      (relink middle none 0 sorted).get n =
        { heap.get n with prev := prev, next := next, position := position }) :
    (∀ n ∈ row, SameLinks (heap.get n) ((relink middle none 0 sorted).get n)) ↔
      sorted = row ∧ Numbered heap row := by
  have distinct := same.nodup_iff.mpr children.chain.nodup
  have place : ∀ {front rest n}, sorted = front ++ n :: rest →
      ((relink middle none 0 sorted).get n).prev = front.getLast? ∧
      ((relink middle none 0 sorted).get n).next = rest.head? ∧
      ((relink middle none 0 sorted).get n).position = front.length + 1 := by
    intro front rest n split
    have here := relink_get middle none 0 front (split ▸ distinct)
    rw [← split] at here
    rw [here, Option.or_none, Nat.zero_add]
    exact ⟨rfl, rfl, rfl⟩
  constructor
  · intro kept
    have chain : Siblings heap sorted.head? sorted := by
      refine (relink_chain middle none 0 distinct).congr ?_
      intro n member
      exact (kept n (same.mem_iff.mp member)).next.symm
    have whole : sorted = row := by
      cases sorted with
      | nil => exact same.symm.eq_nil.symm
      | cons first others =>
          -- the first of the sorted list has no node before it, so it is the first of the row
          have member := same.mem_iff.mp List.mem_cons_self
          rcases List.append_of_mem member with ⟨front, rest, split⟩
          have back := (children.before split (.nil)).start_eq
          have none_ : (heap.get first).prev = none :=
            (kept first member).prev.symm.trans (place (List.nil_append _).symm).1
          rw [List.append_nil, List.head?_reverse] at back
          have begins : front = [] := List.getLast?_eq_none_iff.mp (back.symm.trans none_)
          rw [begins] at split
          have start := children.chain
          rw [start.start_eq, split] at start
          rw [split]
          exact chain.unique start
    refine ⟨whole, ?_⟩
    intro i small
    have split : sorted = row.take i ++ row[i] :: row.drop (i + 1) := by
      rw [whole]
      rw [List.getElem_cons_drop, List.take_append_drop]
    have numbered := (place split).2.2
    rw [(kept row[i] (List.getElem_mem small)).position, List.length_take,
      Nat.min_eq_left (Nat.le_of_lt small)] at numbered
    exact numbered
  · rintro ⟨rfl, numbered⟩ n member
    rcases fields n member with ⟨prev, next, position, here⟩
    rcases List.append_of_mem member with ⟨front, rest, split⟩
    have links := place split
    have back := (children.before split (.nil)).start_eq
    rw [List.append_nil, List.head?_reverse] at back
    have forth := (children.after split).start_eq
    have counted := numbered.of_split split
    refine ⟨?_, links.2.1.trans forth.symm, links.1.trans back.symm, ?_, links.2.2.trans counted.symm⟩
    · rw [here]
    · rw [here]

/-- What is sorted is a list that ends. -/
theorem sortSelection_listed {sorts : List SortChild} {heap after : Heap} {selection sorted : Ptr}
    {visited : List NodeId} (bound : ∀ n, selection = some n → n < heap.size)
    (done : sortSelection env depth sorts heap selection = some (after, sorted))
    (relisted : siblings after sorted = some visited) :
    Exists fun nodes => siblings heap selection = some nodes := by
  cases sorts with
  | nil =>
      cases done
      exact ⟨visited, relisted⟩
  | cons sort rest =>
      rcases Option.bind_eq_some_iff.mp done with ⟨⟨middle, next⟩, first, _⟩
      unfold xpathSortSelection at first
      cases selection with
      | none => exact ⟨[], follow_eq_some_iff.mpr ⟨.nil, Nat.zero_le _⟩⟩
      | some head =>
          dsimp only at first
          split at first
          next alone =>
            refine ⟨[head], follow_eq_some_iff.mpr ⟨.cons head [] ?_, Nat.zero_lt_of_lt (bound head rfl)⟩⟩
            rw [alone]
            exact .nil
          · rcases Option.bind_eq_some_iff.mp first with ⟨nodes, listed, _⟩
            exact ⟨nodes, listed⟩

/-- A visit to new nodes leaves the old ones alone. -/
theorem visited_select_unchanged {select : Expr} {children : List SortChild} {current : NodeId}
    {before heap after : Heap} {selection sorted : Ptr} {visited : List NodeId}
    (old : Old env.locals before)
    (selects : xpathEvalSelection env (xpathExecuteScalar env depth) select current before =
      some (selection, heap))
    (done : sortSelection env depth children heap selection = some (after, sorted))
    (relisted : siblings after sorted = some visited) {n : NodeId} (small : n < before.size)
    (other : env.locals ≠ some n) : after.get n = before.get n := by
  have made := xpathEvalSelection_allocates env (xpathExecuteScalar_framed env depth) old selects
  rcases sortSelection_listed (fun n same => (made.2 n same).2) done relisted with ⟨nodes, listed⟩
  have fresh := made.1.siblings_fresh made.2 listed
  have touched := (sortSelection_rearranged (old.grow made.1) listed done relisted).1
  have outside : n ∉ nodes := fun member => absurd small (Nat.not_lt.mpr (fresh n member).1)
  rw [touched.others n (Nat.lt_of_lt_of_le small made.1.grows) other outside]
  exact made.1.same n small other

/-- Selecting and sorting leave the documents as they were, except where
`xsl:apply-templates` without `select` sorts two or more children of its node
that do not stand in that order, with the positions from one on, already. -/
theorem visit_unchanged_iff (instruction : VisitingInstruction) (children : List InstructionChild)
    {before after : Heap} {inside : NodeId → Prop} (linked : Linked before inside)
    (old : Old env.locals before) (apart : ∀ l, env.locals = some l → ¬ inside l)
    {owner current : NodeId} {row visited : List NodeId}
    (rowOf : Row before.links owner none (before.get current).children row)
    (members : ∀ n ∈ row, inside n)
    (arrives : instruction.visited env depth children current before = some (after, visited)) :
    Unchanged inside before after ↔
      instruction ≠ .applyTemplates none ∨ instruction.sorts children = [] ∨ row.length < 2 ∨
      Numbered before row ∧ Exists fun found =>
        comparisons env depth (instruction.sorts children) before (before.get current).children =
          some found ∧ SortedInTurn found row row := by
  have different : ∀ {n}, inside n → env.locals ≠ some n := fun member same => apart _ same member
  unfold VisitingInstruction.visited at arrives
  rcases Option.bind_eq_some_iff.mp arrives with ⟨⟨selection, heap⟩, selects, arrives⟩
  rcases Option.bind_eq_some_iff.mp arrives with ⟨⟨last, sorted⟩, done, arrives⟩
  rcases Option.bind_eq_some_iff.mp arrives with ⟨nodes, relisted, done'⟩
  cases done'
  have selected : ∀ select, xpathEvalSelection env (xpathExecuteScalar env depth) select current
      before = some (selection, heap) → Unchanged inside before after := by
    intro select evaluated n member
    exact .of_eq (visited_select_unchanged old evaluated done relisted (linked.forest.bound member)
      (different member))
  cases instruction with
  | forEach select => exact ⟨fun _ => .inl nofun, fun _ => selected select selects⟩
  | applyTemplates select =>
      cases select with
      | some select => exact ⟨fun _ => .inl nofun, fun _ => selected select selects⟩
      | none =>
          cases selects
          have listed : siblings before (before.get current).children = some row :=
            follow_eq_some_iff.mpr ⟨rowOf.chain, linked.forest.length_le rowOf.chain.nodup members⟩
          rcases sortSelection_rearranged old listed done relisted with ⟨touched, same, few, many⟩
          by_cases idle : (VisitingInstruction.applyTemplates none).sorts children = [] ∨ row.length < 2
          · rw [(few idle).1]
            constructor
            · intro _
              rcases idle with none_ | few
              · exact .inr (.inl none_)
              · exact .inr (.inr (.inl few))
            · intro _ n _
              exact .of_eq rfl
          · have sorts := fun none_ => idle (.inl none_)
            have several := Nat.le_of_not_lt fun few => idle (.inr few)
            rcases many sorts several with ⟨middle, memory⟩
            rcases sortSelection_spec old listed done with
              ⟨found, nodes', compares, inTurn, relisted', _, _⟩
            rw [relisted] at relisted'
            cases relisted'
            have fields : ∀ n ∈ row, Exists fun prev => Exists fun next => Exists fun position =>
                (relink middle none 0 visited).get n = { before.get n with
                  prev := prev, next := next, position := position } := by
              intro n member
              rw [← memory]
              exact touched.members n (linked.forest.bound (members n member))
                (different (members n member))
            have inRow := sameLinks_relink_iff rowOf same fields
            rw [← memory] at inRow
            have whole : Unchanged inside before after ↔
                ∀ n ∈ row, SameLinks (before.get n) (after.get n) := by
              refine ⟨fun all n member => all n (members n member), fun all n member => ?_⟩
              by_cases here : n ∈ row
              · exact all n here
              · exact .of_eq (touched.others n (linked.forest.bound member) (different member) here)
            rw [whole, inRow]
            constructor
            · rintro ⟨rfl, numbered⟩
              exact .inr (.inr (.inr ⟨numbered, found, compares, inTurn⟩))
            · rintro (impossible | impossible | impossible | ⟨numbered, found', compares', still⟩)
              · exact absurd rfl impossible
              · exact absurd impossible sorts
              · exact absurd impossible (Nat.not_lt.mpr several)
              · rw [compares] at compares'
                cases compares'
                exact ⟨inTurn.unique still, numbered⟩

end Visit

/-- The document of two elements as `xml_parse_string` returns it, and behind
it a node for local variables. -/
def numberedHeap : Heap := (xmlNewNode (parsedMemory 120 disagreeing) none .empty).1

theorem disagreeing_parsed : XmlParseString .empty disagreeing 0 (parsedMemory 120 disagreeing) :=
  xmlParseString_of_run ⟨120, rfl⟩ (by decide) (by decide)

theorem numberedHeap_extends : (parsedMemory 120 disagreeing).Extends numberedHeap :=
  (Arena.Extends.refl _).alloc _

/-- Sorting the children of the document element by `q` changes their order
in the document. -/
theorem children_are_sorted_in_place : Exists fun after => Exists fun visited =>
    XmlParseString .empty disagreeing 0 (parsedMemory 120 disagreeing) ∧
      (VisitingInstruction.applyTemplates none).visited disagreeingEnv 0
        [.sort (sortBy (lit "@q"))] 1 numberedHeap = some (after, visited) ∧
      (numberedHeap.get 2).next = some 5 ∧ (after.get 2).next = none ∧
      ¬ Unchanged (Made 0 (parsedMemory 120 disagreeing)) numberedHeap after := by
  have sorts : ((VisitingInstruction.applyTemplates none).visited disagreeingEnv 0
      [.sort (sortBy (lit "@q"))] 1 numberedHeap).map (fun result => (result.1.get 2).next) =
        some none := by decide
  rcases Option.map_eq_some_iff.mp sorts with ⟨⟨after, visited⟩, arrives, moved⟩
  have next : (numberedHeap.get 2).next = some 5 := by decide
  have made : Made 0 (parsedMemory 120 disagreeing) 2 := by
    refine ⟨Nat.zero_le 2, ?_, ?_⟩ <;> decide
  refine ⟨after, visited, disagreeing_parsed, arrives, next, moved, ?_⟩
  intro unchanged
  have kept := (unchanged 2 made).next
  rw [next] at kept
  exact nomatch moved.symm.trans kept

/-- The same sort in `xsl:for-each` leaves the document alone. -/
theorem visit_unchanged_iff_disagreeing : Exists fun after => Exists fun visited =>
    eachElement.visited disagreeingEnv 0 [.sort (sortBy (lit "@q"))] 1 numberedHeap =
        some (after, visited) ∧
      Unchanged (Made 0 (parsedMemory 120 disagreeing)) numberedHeap after := by
  have visits : (eachElement.visited disagreeingEnv 0 [.sort (sortBy (lit "@q"))] 1
      numberedHeap).isSome = true := by decide
  rcases Option.isSome_iff_exists.mp visits with ⟨⟨after, visited⟩, arrives⟩
  have linked : Linked numberedHeap (Made 0 (parsedMemory 120 disagreeing)) :=
    disagreeing_parsed.placed.1.extend numberedHeap_extends
  have old : Old disagreeingEnv.locals numberedHeap := by
    rintro l ⟨⟩
    decide
  have apart : ∀ l, disagreeingEnv.locals = some l → ¬ Made 0 (parsedMemory 120 disagreeing) l := by
    rintro l ⟨⟩ made
    exact absurd made.2.1 (by decide)
  have element : Made 0 (parsedMemory 120 disagreeing) 1 := by
    refine ⟨Nat.zero_le 1, ?_, ?_⟩ <;> decide
  rcases linked.row element with ⟨row, rowOf, members⟩
  have keeps := visit_unchanged_iff eachElement _ linked old apart rowOf members arrives
  exact ⟨after, visited, arrives, keeps.mpr (.inl nofun)⟩

end TurboXSL
