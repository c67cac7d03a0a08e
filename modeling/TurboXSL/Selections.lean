import TurboXSL.Copies
import TurboXSL.XPathFrame

namespace TurboXSL

open Library

/-!
# How selections are built

The memory behind `add_to_selection` and `xpath_apply_selector`, which write
new nodes only: a selection is a list of copies of its sources, linked in
their order, with the positions that were counted.
-/

/-- The copies of sources, and the positions that were counted. -/
def Copied (heap : Heap) (copies : List NodeId) (sources : List (NodeId × Nat)) : Prop :=
  List.Forall₂ (fun c source => CopyOf heap source.1 c ∧ (heap.get c).position = source.2)
    copies sources

/-- From `before` to `after`, copies of the sources were linked behind `prev`;
the node `locals` may have changed. -/
structure Appended (locals : Ptr) (before after : Heap) (prev : Ptr) (copies : List NodeId)
    (sources : List (NodeId × Nat)) : Prop where
  grows : before.size ≤ after.size
  same : ∀ i < before.size, prev ≠ some i → locals ≠ some i → after.get i = before.get i
  tail : ∀ p, prev = some p → p < before.size → after.get p =
    { before.get p with next := copies.head?.or (before.get p).next }
  chain : Siblings after copies.head? copies
  copied : Copied after copies sources
  fresh : ∀ c ∈ copies, before.size ≤ c ∧ c < after.size
  back : ∀ c ∈ copies, ∀ p, (after.get c).prev = some p → p ∈ copies ∨ prev = some p

theorem Copied.length {heap : Heap} {copies : List NodeId} {sources : List (NodeId × Nat)}
    (copied : Copied heap copies sources) : copies.length = sources.length :=
  List.Forall₂.length_eq copied

/-- A copy stays one as long as neither it nor its source changes, but for
the link forward. -/
theorem CopyOf.keep {heap after : Heap} {src c : NodeId} (copy : CopyOf heap src c)
    (grows : heap.size ≤ after.size)
    (kept : Exists fun next => after.get c = { heap.get c with next := next })
    (source : after.get src = heap.get src) : CopyOf after src c := by
  rcases kept with ⟨next, here⟩
  refine ⟨copy.older, Nat.lt_of_lt_of_le copy.made grows, ?_, ?_, ?_, ?_, ?_, ?_, ?_⟩
  all_goals rw [here]
  all_goals try rw [source]
  · exact copy.type
  · exact copy.name
  · exact copy.content
  · exact copy.parent
  · exact copy.children
  · exact copy.attributes
  · exact copy.original

theorem Copied.keep {heap after : Heap} {copies : List NodeId} {sources : List (NodeId × Nat)}
    (copied : Copied heap copies sources) (grows : heap.size ≤ after.size)
    (kept : ∀ c ∈ copies, Exists fun next => after.get c = { heap.get c with next := next })
    (source : ∀ s ∈ sources, after.get s.1 = heap.get s.1) : Copied after copies sources := by
  induction copied with
  | nil => exact .nil
  | cons first _ inductionHypothesis =>
      have here := kept _ List.mem_cons_self
      refine .cons ⟨first.1.keep grows here (source _ List.mem_cons_self), ?_⟩ ?_
      · rcases here with ⟨next, same⟩
        rw [same]
        exact first.2
      · exact inductionHypothesis (fun c member => kept c (List.mem_cons_of_mem _ member))
          fun s member => source s (List.mem_cons_of_mem _ member)

/-! ## Copies behind one another -/

theorem setNext_get_of_ne {heap : Heap} {node next : Ptr} {i : NodeId} (other : node ≠ some i) :
    (setNext heap node next).get i = heap.get i := by
  cases node with
  | none => rfl
  | some n =>
      have different : i ≠ n := by
        rintro rfl
        exact other rfl
      exact heap.modify_get_of_ne (fun cell => { cell with next := next }) different

theorem setNext_get_same {heap : Heap} {n : NodeId} {next : Ptr} :
    (setNext heap (some n) next).get n = { heap.get n with next := next } :=
  heap.modify_get_same n fun cell => { cell with next := next }

/-- `add_to_selection` makes a copy that ends the list. -/
theorem addToSelection_appended {locals : Ptr} {heap : Heap} {prev : Ptr} {src : NodeId}
    {position : Nat} (old : src < heap.size) (apart : prev ≠ some src)
    (bound : ∀ p, prev = some p → p < heap.size) :
    Appended locals heap (addToSelection heap prev src position).1 prev [heap.size] [(src, position)] := by
  have size : (addToSelection heap prev src position).1.size = heap.size + 1 := setNext_size _ _ _
  have new : (addToSelection heap prev src position).1.get heap.size =
      selectionCopy heap prev src position := by
    have other : prev ≠ some heap.size := fun same => absurd (bound _ same) (Nat.lt_irrefl _)
    exact (setNext_get_of_ne other).trans (heap.alloc_get_same _)
  have same : ∀ i < heap.size, prev ≠ some i →
      (addToSelection heap prev src position).1.get i = heap.get i := fun i small other =>
    (setNext_get_of_ne other).trans (heap.alloc_get_of_lt _ small)
  have ends : ((addToSelection heap prev src position).1.get heap.size).next = none := by
    rw [new]
    rfl
  refine ⟨Nat.le_of_lt (size ▸ Nat.lt_succ_self _), fun i small other _ => same i small other,
    ?_, ?_, ?_, ?_, ?_⟩
  · rintro p rfl small
    refine setNext_get_same.trans ?_
    rw [heap.alloc_get_of_lt _ small]
    rfl
  · refine .cons heap.size [] ?_
    rw [ends]
    exact .nil
  · refine .cons ⟨?_, ?_⟩ .nil
    · refine ⟨old, size ▸ Nat.lt_succ_self _, ?_, ?_, ?_, ?_, ?_, ?_, ?_⟩
      all_goals rw [new]
      all_goals try rw [same src old apart]
      all_goals rfl
    · rw [new]
      rfl
  · intro c member
    cases List.mem_singleton.mp member
    exact ⟨Nat.le_refl _, size ▸ Nat.lt_succ_self _⟩
  · intro c member p behind
    cases List.mem_singleton.mp member
    rw [new] at behind
    exact .inr behind

/-- A chain goes on where its last link is set to another. -/
theorem chain_append {heap after : Heap} {start : Ptr} {front back : List NodeId} {last : NodeId}
    (chain : Siblings heap start front) (ends : front.getLast? = some last)
    (kept : ∀ c ∈ front, c ≠ last → (after.get c).next = (heap.get c).next)
    (link : (after.get last).next = back.head?) (onward : Siblings after back.head? back) :
    Siblings after start (front ++ back) := by
  induction chain with
  | nil => cases ends
  | cons first rest tail inductionHypothesis =>
      refine .cons first (rest ++ back) ?_
      cases rest with
      | nil =>
          have same : first = last := Option.some.inj ends
          change Siblings after (after.get first).next back
          rw [same, link]
          exact onward
      | cons second rest =>
          have other : first ≠ last := by
            rintro rfl
            have distinct := (Chain.cons first _ tail).nodup
            rw [List.getLast?_cons_cons] at ends
            exact (List.nodup_cons.mp distinct).1 (List.mem_of_getLast? ends)
          rw [kept first List.mem_cons_self other]
          rw [List.getLast?_cons_cons] at ends
          exact inductionHypothesis ends fun c member => kept c (List.mem_cons_of_mem _ member)

/-- The end of a list that was built behind `prev` is a new node or `prev`. -/
theorem Appended.last_ne {locals : Ptr} {before middle : Heap} {prev : Ptr} {front : List NodeId}
    {first : List (NodeId × Nat)} (left : Appended locals before middle prev front first) {i : NodeId}
    (small : i < before.size) (other : prev ≠ some i) : front.getLast?.or prev ≠ some i := by
  intro same
  cases last : front.getLast? with
  | none =>
      rw [last, Option.none_or] at same
      exact other same
  | some l =>
      rw [last, Option.some_or] at same
      cases same
      exact absurd small (Nat.not_lt.mpr (left.fresh i (List.mem_of_getLast? last)).1)

/-- Two lists of copies, the second behind the first. -/
theorem Appended.join {locals : Ptr} {before middle after : Heap} {prev : Ptr}
    {front back : List NodeId} {first second : List (NodeId × Nat)} (old : Old locals before)
    (prevLocal : ∀ p, prev = some p → locals ≠ some p)
    (left : Appended locals before middle prev front first)
    (right : Appended locals middle after (front.getLast?.or prev) back second)
    (sources : ∀ s ∈ first, s.1 < middle.size ∧ front.getLast?.or prev ≠ some s.1 ∧
      locals ≠ some s.1) :
    Appended locals before after prev (front ++ back) (first ++ second) := by
  have same : ∀ i < before.size, prev ≠ some i → locals ≠ some i → after.get i = before.get i := by
    intro i small other plain
    rw [right.same i (Nat.lt_of_lt_of_le small left.grows) (left.last_ne small other) plain]
    exact left.same i small other plain
  have notLocal : ∀ c ∈ front, locals ≠ some c := fun c member here =>
    absurd (old c here) (Nat.not_lt.mpr (left.fresh c member).1)
  have onFront : ∀ c ∈ front, Exists fun next => after.get c = { middle.get c with next := next } := by
    intro c member
    have inMiddle := (left.fresh c member).2
    by_cases last : front.getLast?.or prev = some c
    · exact ⟨_, right.tail c last inMiddle⟩
    · exact ⟨_, right.same c inMiddle last (notLocal c member)⟩
  refine ⟨Nat.le_trans left.grows right.grows, same, ?_, ?_, ?_, ?_, ?_⟩
  · rintro p rfl small
    cases front with
    | nil =>
        have here := right.tail p rfl (Nat.lt_of_lt_of_le small left.grows)
        rw [left.tail p rfl small] at here
        exact here
    | cons head rest =>
        have other : (head :: rest).getLast?.or (some p) ≠ some p := by
          intro last
          rw [List.getLast?_eq_some_getLast (List.cons_ne_nil head rest), Option.some_or] at last
          have member := List.getLast_mem (List.cons_ne_nil head rest)
          rw [Option.some.inj last] at member
          exact absurd small (Nat.not_lt.mpr (left.fresh p member).1)
        rw [right.same p (Nat.lt_of_lt_of_le small left.grows) other (prevLocal p rfl),
          left.tail p rfl small]
        rfl
  · cases last : front.getLast? with
    | none =>
        cases List.getLast?_eq_none_iff.mp last
        exact right.chain
    | some l =>
        have inFront := List.mem_of_getLast? last
        have linked := right.tail l (by rw [last]; rfl) (left.fresh l inFront).2
        have start : (front ++ back).head? = front.head? := by
          cases front with
          | nil => cases last
          | cons head rest => rfl
        rw [start]
        refine chain_append left.chain last ?_ ?_ right.chain
        · intro c member other
          rw [right.same c (left.fresh c member).2 _ (notLocal c member)]
          rw [last]
          exact fun same => other (Option.some.inj same).symm
        · rw [linked, left.chain.ends last, Option.or_none]
  · refine List.rel_append ?_ right.copied
    refine left.copied.keep right.grows onFront ?_
    intro s member
    have here := sources s member
    exact right.same s.1 here.1 here.2.1 here.2.2
  · intro c member
    rcases List.mem_append.mp member with inFront | inBack
    · exact ⟨(left.fresh c inFront).1, Nat.lt_of_lt_of_le (left.fresh c inFront).2 right.grows⟩
    · exact ⟨Nat.le_trans left.grows (right.fresh c inBack).1, (right.fresh c inBack).2⟩
  · intro c member p behind
    rcases List.mem_append.mp member with inFront | inBack
    · rcases onFront c inFront with ⟨next, here⟩
      rw [here] at behind
      exact (left.back c inFront p behind).imp_left (List.mem_append_left back)
    · rcases right.back c inBack p behind with later | last
      · exact .inl (List.mem_append_right front later)
      · cases ends : front.getLast? with
        | none =>
            rw [ends, Option.none_or] at last
            exact .inr last
        | some l =>
            rw [ends, Option.some_or] at last
            cases last
            exact .inl (List.mem_append_left back (List.mem_of_getLast? ends))

/-- The sources of the first list are old nodes. -/
theorem Appended.trans {locals : Ptr} {before middle after : Heap} {prev : Ptr}
    {front back : List NodeId} {first second : List (NodeId × Nat)} (old : Old locals before)
    (prevLocal : ∀ p, prev = some p → locals ≠ some p)
    (left : Appended locals before middle prev front first)
    (right : Appended locals middle after (front.getLast?.or prev) back second)
    (sources : ∀ s ∈ first, s.1 < before.size ∧ prev ≠ some s.1 ∧ locals ≠ some s.1) :
    Appended locals before after prev (front ++ back) (first ++ second) := by
  apply left.join old prevLocal right
  intro s member
  have here := sources s member
  exact ⟨Nat.lt_of_lt_of_le here.1 left.grows, left.last_ne here.1 here.2.1, here.2.2⟩

/-- What is allocated besides. -/
theorem Appended.of_allocates {locals : Ptr} {before after : Heap}
    (allocates : Allocates locals before after) {prev : Ptr}
    (prevLocal : ∀ p, prev = some p → locals ≠ some p) :
    Appended locals before after prev [] [] where
  grows := allocates.grows
  same := fun i small _ plain => allocates.same i small plain
  tail := fun p behind small => allocates.same p small (prevLocal p behind)
  chain := .nil
  copied := .nil
  fresh := nofun
  back := nofun

theorem Appended.nil (locals : Ptr) (heap : Heap) (prev : Ptr) :
    Appended locals heap heap prev [] [] where
  grows := Nat.le_refl _
  same := fun _ _ _ _ => rfl
  tail := fun _ _ _ => rfl
  chain := .nil
  copied := .nil
  fresh := nofun
  back := nofun

/-- A selection of old nodes, behind a node that is none of them. -/
theorem addAllToSelection_appended (sources : List (NodeId × Nat)) {heap : Heap} {prev : Ptr}
    (old : ∀ s ∈ sources, s.1 < heap.size ∧ prev ≠ some s.1)
    (bound : ∀ p, prev = some p → p < heap.size) :
    Appended none heap (addAllToSelection heap prev sources).1 prev
      (addAllToSelection heap prev sources).2 sources := by
  induction sources generalizing heap prev with
  | nil => exact .nil none heap prev
  | cons source rest inductionHypothesis =>
      rcases source with ⟨src, position⟩
      have here := old _ List.mem_cons_self
      have first : Appended none heap (addToSelection heap prev src position).1 prev [heap.size]
          [(src, position)] := addToSelection_appended here.1 here.2 bound
      have size := (first.fresh heap.size (List.mem_singleton_self _)).2
      have later : Appended none (addToSelection heap prev src position).1
          (addAllToSelection (addToSelection heap prev src position).1 (some heap.size) rest).1
          (some heap.size)
          (addAllToSelection (addToSelection heap prev src position).1 (some heap.size) rest).2
          rest := by
        refine inductionHypothesis (fun s member => ?_) fun p same => Option.some.inj same ▸ size
        have there := (old s (List.mem_cons_of_mem _ member)).1
        refine ⟨Nat.lt_of_lt_of_le there first.grows, fun same => ?_⟩
        exact absurd there (Option.some.inj same ▸ Nat.lt_irrefl _)
      have both : Appended none heap (addAllToSelection heap prev ((src, position) :: rest)).1 prev
          ([heap.size] ++ (addAllToSelection (addToSelection heap prev src position).1
            (some heap.size) rest).2) ([(src, position)] ++ rest) := by
        refine first.trans nofun nofun later ?_
        intro s member
        cases List.mem_singleton.mp member
        exact ⟨here.1, here.2, nofun⟩
      exact both

/-- A new selection. -/
theorem newSelection_appended (sources : List (NodeId × Nat)) {heap : Heap}
    (old : ∀ s ∈ sources, s.1 < heap.size) : Exists fun copies =>
      (newSelection heap sources).2 = copies.head? ∧
      Appended none heap (newSelection heap sources).1 none copies sources :=
  ⟨_, rfl, addAllToSelection_appended sources (fun s member => ⟨old s member, nofun⟩) nofun⟩

/-- A chain of existing nodes is what the evaluator lists. -/
theorem siblings_of_chain {heap : Heap} {start : Ptr} {nodes : List NodeId}
    (chain : Siblings heap start nodes) (bound : ∀ n ∈ nodes, n < heap.size) :
    siblings heap start = some nodes := by
  apply follow_eq_some_iff.mpr
  refine ⟨chain, ?_⟩
  have subset : nodes ⊆ List.range heap.size := fun n member => List.mem_range.mpr (bound n member)
  have short := (chain.nodup.subperm subset).length_le
  rwa [List.length_range] at short

theorem Appended.listed {locals : Ptr} {before after : Heap} {prev : Ptr} {copies : List NodeId}
    {sources : List (NodeId × Nat)} (appended : Appended locals before after prev copies sources) :
    siblings after copies.head? = some copies :=
  siblings_of_chain appended.chain fun c member => (appended.fresh c member).2

theorem Appended.extends_ {before after : Heap} {copies : List NodeId}
    {sources : List (NodeId × Nat)} (appended : Appended none before after none copies sources) :
    before.Extends after := ⟨appended.grows, fun i small => appended.same i small nofun nofun⟩

/-- A list that was built apart is linked behind a node. -/
theorem Appended.link {before after : Heap} {copies : List NodeId} {sources : List (NodeId × Nat)}
    (apart : Appended none before after none copies sources) {prev : Ptr} (some_ : copies ≠ [])
    (bound : ∀ p, prev = some p → p < before.size)
    (old : ∀ s ∈ sources, s.1 < before.size ∧ prev ≠ some s.1) :
    Appended none before (setNext after prev copies.head?) prev copies sources := by
  have other : ∀ c ∈ copies, prev ≠ some c := fun c member same =>
    absurd (bound c same) (Nat.not_lt.mpr (apart.fresh c member).1)
  refine ⟨?_, ?_, ?_, ?_, ?_, ?_, ?_⟩
  · rw [setNext_size]
    exact apart.grows
  · intro i small different _
    rw [setNext_get_of_ne different]
    exact apart.same i small nofun nofun
  · rintro p rfl small
    rw [setNext_get_same, apart.same p small nofun nofun]
    cases copies with
    | nil => exact absurd rfl some_
    | cons first rest => rfl
  · exact apart.chain.congr fun c member => congrArg XmlNode.next (setNext_get_of_ne (other c member))
  · refine apart.copied.keep (Nat.le_of_eq (setNext_size _ _ _).symm) ?_ ?_
    · intro c member
      exact ⟨_, setNext_get_of_ne (other c member)⟩
    · intro s member
      exact setNext_get_of_ne (old s member).2
  · intro c member
    rw [setNext_size]
    exact apart.fresh c member
  · intro c member p behind
    rw [setNext_get_of_ne (other c member)] at behind
    exact (apart.back c member p behind).imp_right nofun

/-- `xpath_apply_selector` puts the selections of the nodes behind one
another, where these do not depend on what is allocated meanwhile. -/
theorem xpathApplySelector_appended
    (select : Heap → NodeId → Option (List (NodeId × Nat))) {base : Heap} (nodes : List NodeId)
    {heap : Heap} (extended : base.Extends heap) {tail : Ptr}
    (new : ∀ p, tail = some p → base.size ≤ p ∧ p < heap.size)
    (selects : ∀ c ∈ nodes, ∀ heap, base.Extends heap → select heap c = select base c)
    (old : ∀ c ∈ nodes, ∀ sources, select base c = some sources → ∀ s ∈ sources, s.1 < base.size) :
    match nodes.mapM (select base) with
    | none => xpathApplySelector select heap tail nodes = none
    | some lists => Exists fun after => Exists fun copies =>
        xpathApplySelector select heap tail nodes = some (after, copies.head?) ∧
          Appended none heap after tail copies lists.flatten := by
  induction nodes generalizing heap tail with
  | nil => exact ⟨heap, [], rfl, .nil none heap tail⟩
  | cons node rest inductionHypothesis =>
      have selected := selects node List.mem_cons_self heap extended
      have laterSelects := fun c member => selects c (List.mem_cons_of_mem node member)
      have laterOld := fun c member => old c (List.mem_cons_of_mem node member)
      rw [List.mapM_cons]
      unfold xpathApplySelector
      rw [selected]
      cases listing : select base node with
      | none => rfl
      | some sources =>
          have fresh : ∀ s ∈ sources, s.1 < heap.size ∧ tail ≠ some s.1 := by
            intro s member
            have small := old node List.mem_cons_self sources listing s member
            refine ⟨Nat.lt_of_lt_of_le small extended.grows, fun same => ?_⟩
            exact absurd small (Nat.not_lt.mpr (new s.1 same).1)
          have made : Appended none heap (addAllToSelection heap none sources).1 none
              (addAllToSelection heap none sources).2 sources :=
            addAllToSelection_appended _ (fun s member => ⟨(fresh s member).1, by rintro ⟨⟩⟩) (by rintro _ ⟨⟩)
          generalize built : addAllToSelection heap none sources = result at made
          rcases result with ⟨middle, copies⟩
          simp only [Option.bind_eq_bind, Option.bind_some, built]
          have length : copies.length = sources.length := made.copied.length
          cases copies with
          | nil =>
              -- nothing is selected: the list goes on where it was
              have empty : sources = [] := List.eq_nil_of_length_eq_zero length.symm
              subst empty
              cases built
              have later := inductionHypothesis extended new laterSelects laterOld
              cases others : rest.mapM (select base) with
              | none =>
                  rw [others] at later
                  exact later
              | some lists =>
                  rw [others] at later
                  exact later
          | cons first more =>
              have linked := made.link (List.cons_ne_nil first more) (fun p same => (new p same).2) fresh
              have extendedMiddle : base.Extends (setNext middle tail (some first)) := by
                refine ⟨Nat.le_trans extended.grows linked.grows, fun i small => ?_⟩
                have other : tail ≠ some i := fun same =>
                  absurd small (Nat.not_lt.mpr (new i same).1)
                have kept := linked.same i (Nat.lt_of_lt_of_le small extended.grows) other (by rintro ⟨⟩)
                exact kept.trans (extended.same i small)
              have newLast : ∀ p, (first :: more).getLast? = some p →
                  base.size ≤ p ∧ p < (setNext middle tail (some first)).size := by
                intro p last
                have here := linked.fresh p (List.mem_of_getLast? last)
                exact ⟨Nat.le_trans extended.grows here.1, here.2⟩
              have later := inductionHypothesis extendedMiddle newLast laterSelects laterOld
              cases others : rest.mapM (select base) with
              | none =>
                  rw [others] at later
                  dsimp only [List.head?_cons]
                  rw [later]
                  rfl
              | some lists =>
                  rw [others] at later
                  rcases later with ⟨after, copies, applied, appended⟩
                  refine ⟨after, (first :: more) ++ copies, ?_, ?_⟩
                  · dsimp only [List.head?_cons]
                    rw [applied]
                    rfl
                  · have last : (first :: more).getLast?.or tail = (first :: more).getLast? := by
                      rw [List.getLast?_eq_some_getLast (List.cons_ne_nil first more)]
                      rfl
                    refine linked.trans (by rintro _ ⟨⟩) (by rintro _ _ ⟨⟩) ?_ fun s member =>
                      ⟨(fresh s member).1, (fresh s member).2, by rintro ⟨⟩⟩
                    rw [last]
                    exact appended

end TurboXSL
