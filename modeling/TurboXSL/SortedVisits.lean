import TurboXSL.ParseTree
import TurboXSL.Sorting
import TurboXSL.XPathFrame

namespace TurboXSL

open Library Parse

/-!
# The order of a sorted visit

Every sort puts the nodes into the order of its own keys and leaves alone
what these do not tell apart.  As the sorts are applied in document order,
the last `xsl:sort` decides first.
-/

/-! ## Comparison of keys -/

/-- The comparison of the first two bytes that differ. -/
theorem strcasecmp_cons (l r : UInt8) (ls rs : Bytes) : strcasecmp (l :: ls) (r :: rs) =
    if tolower l = tolower r then if tolower l = 0 then 0 else strcasecmp ls rs
    else (tolower l).toNat - (tolower r).toNat := rfl

theorem strcasecmp_swap (left right : Bytes) : strcasecmp right left = -strcasecmp left right := by
  induction left generalizing right with
  | nil =>
      cases right with
      | nil => rfl
      | cons r rs => exact (Int.neg_neg _).symm
  | cons l ls inductionHypothesis =>
      cases right with
      | nil => rfl
      | cons r rs =>
          rw [strcasecmp_cons, strcasecmp_cons]
          by_cases same : tolower l = tolower r
          · rw [if_pos same, if_pos same.symm, ← same]
            split
            · rfl
            · exact inductionHypothesis rs
          · rw [if_neg same, if_neg (Ne.symm same)]
            omega

theorem strcasecmp_trans (left middle right : Bytes) (first : strcasecmp left middle ≤ 0)
    (second : strcasecmp middle right ≤ 0) : strcasecmp left right ≤ 0 := by
  have zero : ∀ {byte : UInt8}, byte.toNat = 0 → byte = 0 := fun same => UInt8.toNat.inj same
  induction left generalizing middle right with
  | nil =>
      cases right with
      | nil => exact Int.le_refl 0
      | cons r rs => exact Int.neg_nonpos_of_nonneg (Int.natCast_nonneg _)
  | cons l ls inductionHypothesis =>
      cases middle with
      | nil =>
          change ((tolower l).toNat : Int) ≤ 0 at first
          have empty : tolower l = 0 := zero (by omega)
          cases right with
          | nil => exact first
          | cons r rs =>
              rw [strcasecmp_cons, if_pos empty]
              split
              · exact Int.le_refl 0
              · omega
      | cons m ms =>
          rw [strcasecmp_cons] at first
          cases right with
          | nil =>
              change ((tolower m).toNat : Int) ≤ 0 at second
              change ((tolower l).toNat : Int) ≤ 0
              split at first
              next same =>
                rw [same]
                exact second
              · omega
          | cons r rs =>
              rw [strcasecmp_cons] at second ⊢
              by_cases here : tolower l = tolower m
              · rw [if_pos here] at first
                rw [← here] at second
                by_cases there : tolower l = tolower r
                · rw [if_pos there] at second ⊢
                  split
                  · exact Int.le_refl 0
                  next more =>
                    rw [if_neg more] at first second
                    exact inductionHypothesis ms rs first second
                · rw [if_neg there] at second ⊢
                  exact second
              · rw [if_neg here] at first
                by_cases there : tolower m = tolower r
                · rw [← there, if_neg here]
                  exact first
                · rw [if_neg there] at second
                  split
                  next same =>
                    have equal : tolower l = tolower m := UInt8.toNat.inj (by
                      rw [same] at first ⊢
                      omega)
                    exact absurd equal here
                  · omega

theorem xmlStrcasecmp_swap (left right : Option Bytes) :
    xmlStrcasecmp right left = -xmlStrcasecmp left right := by
  cases left with
  | none => cases right <;> rfl
  | some l =>
      cases right with
      | none => rfl
      | some r => exact strcasecmp_swap l r

theorem xmlStrcasecmp_trans (left middle right : Option Bytes)
    (first : xmlStrcasecmp left middle ≤ 0) (second : xmlStrcasecmp middle right ≤ 0) :
    xmlStrcasecmp left right ≤ 0 := by
  cases left with
  | none =>
      cases right with
      | none => exact Int.le_refl 0
      | some r => exact Int.neg_nonpos_of_nonneg (by decide)
  | some l =>
      cases middle with
      | none => exact absurd (show (1 : Int) ≤ 0 from first) (by decide)
      | some m =>
          cases right with
          | none => exact absurd (show (1 : Int) ≤ 0 from second) (by decide)
          | some r => exact strcasecmp_trans l m r first second

/-- Texts are ordered, whichever way. -/
theorem exchanges_orders (Num : Type) [Double Num] {Element : Type} {sort : SortChild}
    (text : sort.numericSort = false) (key : Element → Option Bytes) (elements : List Element) :
    Orders (fun left right => sort.exchanges Num (key left) (key right)) elements := by
  have read : ∀ left right, sort.exchanges Num left right =
      decide (0 < sort.backwardSort * xmlStrcasecmp left right) := by
    intro left right
    unfold SortChild.exchanges
    rw [text]
    rfl
  have sign : sort.backwardSort = 1 ∨ sort.backwardSort = -1 := by
    unfold SortChild.backwardSort
    split
    · exact .inr rfl
    · exact .inl rfl
  constructor
  · intro left _ right _ greater
    rw [read] at greater ⊢
    have swap := xmlStrcasecmp_swap (key left) (key right)
    have positive := of_decide_eq_true greater
    refine decide_eq_false ?_
    rcases sign with forwards | backwards
    · rw [forwards] at positive ⊢
      omega
    · rw [backwards] at positive ⊢
      omega
  · intro left _ middle _ right _ greater
    simp only [read] at greater ⊢
    have positive := of_decide_eq_true greater
    simp only [decide_eq_true_eq]
    rcases sign with forwards | backwards
    · rw [forwards] at positive ⊢
      have trans := xmlStrcasecmp_trans (key left) (key middle) (key right)
      omega
    · rw [backwards] at positive ⊢
      have trans := xmlStrcasecmp_trans (key right) (key middle) (key left)
      rw [xmlStrcasecmp_swap (key middle) (key right), xmlStrcasecmp_swap (key left) (key middle),
        xmlStrcasecmp_swap (key left) (key right)] at trans
      omega

/-! ## Links set anew -/

theorem relink_size (heap : Heap) (prev : Ptr) (pos : Nat) (nodes : List NodeId) :
    (relink heap prev pos nodes).size = heap.size := by
  induction nodes generalizing heap prev pos with
  | nil => rfl
  | cons node rest inductionHypothesis => exact inductionHypothesis _ _ _

theorem relink_get_of_not_mem {heap : Heap} {prev : Ptr} {pos : Nat} {nodes : List NodeId}
    {node : NodeId} (other : node ∉ nodes) :
    (relink heap prev pos nodes).get node = heap.get node := by
  induction nodes generalizing heap prev pos with
  | nil => rfl
  | cons first rest inductionHypothesis =>
      unfold relink
      rw [inductionHypothesis (List.not_mem_of_not_mem_cons other),
        heap.modify_get_of_ne _ (List.ne_of_not_mem_cons other)]

/-- A node of the list is linked to its neighbours and numbered. -/
theorem relink_get (heap : Heap) (prev : Ptr) (pos : Nat) (front : List NodeId) {node : NodeId}
    {rest : List NodeId} (distinct : (front ++ node :: rest).Nodup) :
    (relink heap prev pos (front ++ node :: rest)).get node = { heap.get node with
      prev := front.getLast?.or prev, next := rest.head?, position := pos + front.length + 1 } := by
  induction front generalizing heap prev pos with
  | nil =>
      have fresh := (List.nodup_cons.mp distinct).1
      change (relink _ _ _ rest).get node = _
      rw [relink_get_of_not_mem fresh, heap.modify_get_same]
      rfl
  | cons first front inductionHypothesis =>
      have fresh := (List.nodup_cons.mp distinct).1
      have other : node ≠ first := by
        rintro rfl
        exact fresh (List.mem_append_right _ List.mem_cons_self)
      change (relink _ _ _ (front ++ node :: rest)).get node = _
      rw [inductionHypothesis _ _ _ (List.nodup_cons.mp distinct).2, heap.modify_get_of_ne _ other]
      have place : pos + 1 + front.length + 1 = pos + (first :: front).length + 1 := by
        rw [List.length_cons]
        omega
      rw [place]
      cases front with
      | nil => rfl
      | cons second front =>
          rw [List.getLast?_cons_cons]
          cases last : (second :: front).getLast? with
          | none => cases List.getLast?_eq_none_iff.mp last
          | some end_ => rfl

theorem relink_chain (heap : Heap) (prev : Ptr) (pos : Nat) {nodes : List NodeId}
    (distinct : nodes.Nodup) : Siblings (relink heap prev pos nodes) nodes.head? nodes := by
  suffices behind : ∀ rest front, nodes = front ++ rest →
      Siblings (relink heap prev pos nodes) rest.head? rest from behind nodes [] rfl
  intro rest
  induction rest with
  | nil =>
      intro front _
      exact .nil
  | cons node rest inductionHypothesis =>
      intro front split
      refine .cons node rest ?_
      have here := relink_get heap prev pos front (split ▸ distinct)
      rw [← split] at here
      rw [here]
      exact inductionHypothesis (front ++ [node]) (by rw [List.append_assoc]; exact split)

section Evaluation

variable {Num : Type} [Double Num] {env : Env Num} {depth : Nat}

/-! ## One sort -/

theorem xpathEvalString_allocates {etree : Expr} {current : NodeId} {heap after : Heap}
    {text : Option Bytes} (old : Old env.locals heap)
    (evaluated : xpathEvalString env depth etree current heap = some (text, after)) :
    Allocates env.locals heap after := by
  unfold xpathEvalString at evaluated
  split at evaluated
  · cases evaluated
    exact .refl env.locals heap
  · rcases Option.bind_eq_some_iff.mp evaluated with ⟨l, here, evaluated⟩
    rcases Option.bind_eq_some_iff.mp evaluated with ⟨⟨value, last⟩, run, evaluated⟩
    rcases Option.bind_eq_some_iff.mp evaluated with ⟨string, _, done⟩
    cases done
    have placed := setCurrent_allocates heap here current
    exact placed.trans old (xpathExecuteScalar_framed env depth etree _ _ _ _ (old.grow placed) run).allocates

theorem sortKey_allocates {sort : SortChild} {node : NodeId} {heap after : Heap}
    {key : Option Bytes} (old : Old env.locals heap)
    (evaluated : sortKey env depth sort node heap = some (key, after)) :
    Allocates env.locals heap after := by
  unfold sortKey at evaluated
  split at evaluated
  · rcases Option.map_eq_some_iff.mp evaluated with ⟨text, _, done⟩
    cases done
    exact .refl env.locals heap
  · exact xpathEvalString_allocates old evaluated

theorem sortKeys_spec {sort : SortChild} {nodes : List NodeId} {heap after : Heap}
    {keys : List (NodeId × Option Bytes)} (old : Old env.locals heap)
    (read : sortKeys env depth sort nodes heap = some (keys, after)) :
    Allocates env.locals heap after ∧ keys.map Prod.fst = nodes := by
  induction nodes generalizing heap keys with
  | nil =>
      cases read
      exact ⟨.refl _ _, rfl⟩
  | cons node rest inductionHypothesis =>
      rcases Option.bind_eq_some_iff.mp read with ⟨⟨key, middle⟩, first, read⟩
      rcases Option.bind_eq_some_iff.mp read with ⟨⟨others, last⟩, later, done⟩
      cases done
      have step := sortKey_allocates old first
      have further := inductionHypothesis (old.grow step) later
      exact ⟨step.trans old further.1, congrArg (node :: ·) further.2⟩

/-- The key of a node in a table of keys. -/
def keyIn (keys : List (NodeId × Option Bytes)) (node : NodeId) : Option Bytes :=
  (keys.find? fun entry => entry.1 = node).bind Prod.snd

/-- A table of keys is a function of its nodes. -/
theorem keys_eq_map {keys : List (NodeId × Option Bytes)} {nodes : List NodeId}
    (distinct : nodes.Nodup) (of : keys.map Prod.fst = nodes) :
    keys = nodes.map fun node => (node, keyIn keys node) := by
  induction keys generalizing nodes with
  | nil =>
      cases of
      rfl
  | cons entry rest inductionHypothesis =>
      cases of
      have fresh := List.nodup_cons.mp distinct
      have further := inductionHypothesis fresh.2 rfl
      rw [List.map_cons, List.map_cons]
      refine congrArg₂ List.cons ?_ ?_
      · unfold keyIn
        rw [List.find?_cons_of_pos (by exact decide_eq_true rfl)]
        rfl
      · refine further.trans (List.map_congr_left fun node member => ?_)
        unfold keyIn
        rw [List.find?_cons_of_neg]
        rw [decide_eq_true_eq]
        rintro rfl
        exact fresh.1 member

/-- The comparison that a sort makes of its nodes.  No key is read where
there is nothing to sort. -/
def sortComparison (env : Env Num) (depth : Nat) (sort : SortChild) (nodes : List NodeId)
    (heap : Heap) : Option (NodeId → NodeId → Bool) :=
  if nodes.length < 2 then some fun _ _ => false
  else do
    let (keys, _) ← sortKeys env depth sort nodes heap
    some fun left right => sort.exchanges Num (keyIn keys left) (keyIn keys right)

/-- What a sort does to a list. -/
theorem xpathSortSelection_spec {sort : SortChild} {heap after : Heap} {selection sorted : Ptr}
    {nodes : List NodeId} (old : Old env.locals heap) (listed : siblings heap selection = some nodes)
    (done : xpathSortSelection env depth heap selection sort = some (after, sorted)) :
    Exists fun comparison => Exists fun nodes' => Exists fun middle =>
      sortComparison env depth sort nodes heap = some comparison ∧
      bubbleSort comparison nodes = some nodes' ∧
      Allocates env.locals heap middle ∧
      after = (if nodes.length < 2 then heap else relink middle none 0 nodes') ∧
      sorted = nodes'.head? := by
  have chain := (follow_eq_some_iff.mp listed).1
  unfold xpathSortSelection at done
  unfold sortComparison
  cases chain with
  | nil =>
      cases done
      exact ⟨_, [], heap, rfl, rfl, .refl _ _, rfl, rfl⟩
  | cons head rest tail =>
      dsimp only at done
      split at done
      next alone =>
        cases done
        rw [alone] at tail
        cases tail
        exact ⟨_, [head], heap, rfl, rfl, .refl _ _, rfl, rfl⟩
      next more =>
        have several : ¬ (head :: rest).length < 2 := by
          cases rest with
          | nil =>
              cases link : (heap.get head).next with
              | none => exact absurd link more
              | some other =>
                  rw [link] at tail
                  cases tail
          | cons other rest => exact Nat.not_lt.mpr (Nat.le_add_left 2 rest.length)
        rcases Option.bind_eq_some_iff.mp done with ⟨found, again, done⟩
        rw [listed] at again
        cases again
        rcases Option.bind_eq_some_iff.mp done with ⟨⟨keys, middle⟩, read, done⟩
        rcases Option.bind_eq_some_iff.mp done with ⟨entries, sorts, done⟩
        cases done
        have spec := sortKeys_spec old read
        have distinct := (follow_eq_some_iff.mp listed).1.nodup
        rw [keys_eq_map distinct spec.2, bubbleSort_map] at sorts
        rcases Option.map_eq_some_iff.mp sorts with ⟨nodes', sorts, images⟩
        refine ⟨_, nodes', middle, ?_, sorts, spec.1, ?_, ?_⟩
        · rw [if_neg several, read]
          rfl
        · rw [if_neg several, ← images, List.map_map]
          exact congrArg _ (List.map_id' nodes')
        · rw [← images, List.map_map]
          exact congrArg _ (List.map_id' nodes')

/-- There is one way only to arrange a single node. -/
theorem eq_of_perm_of_few {sorted nodes : List NodeId} (same : sorted.Perm nodes)
    (few : nodes.length < 2) : sorted = nodes := by
  cases nodes with
  | nil => exact same.eq_nil
  | cons first rest =>
      cases rest with
      | nil => exact List.perm_singleton.mp same
      | cons second rest => exact absurd few (Nat.not_lt.mpr (Nat.le_add_left 2 rest.length))

/-- The sorted list is the one that is linked. -/
theorem xpathSortSelection_siblings {sort : SortChild} {heap after : Heap} {selection sorted : Ptr}
    {nodes : List NodeId} (old : Old env.locals heap) (listed : siblings heap selection = some nodes)
    (done : xpathSortSelection env depth heap selection sort = some (after, sorted)) :
    Exists fun comparison => Exists fun nodes' =>
      sortComparison env depth sort nodes heap = some comparison ∧
      bubbleSort comparison nodes = some nodes' ∧ siblings after sorted = some nodes' ∧
      heap.size ≤ after.size := by
  rcases xpathSortSelection_spec old listed done with
    ⟨comparison, nodes', middle, compares, sorts, allocates, rfl, rfl⟩
  have chain := follow_eq_some_iff.mp listed
  have same := bubbleSort_perm sorts
  refine ⟨comparison, nodes', compares, sorts, ?_, ?_⟩
  · split
    next few =>
      have unchanged := eq_of_perm_of_few same few
      have begins : nodes.head? = selection := by
        cases chain.1 <;> rfl
      rw [unchanged, begins]
      exact listed
    · refine follow_eq_some_iff.mpr ⟨relink_chain middle none 0 (same.nodup_iff.mpr chain.1.nodup), ?_⟩
      rw [relink_size, same.length_eq]
      exact Nat.le_trans chain.2 allocates.grows
  · split
    · exact Nat.le_refl _
    · rw [relink_size]
      exact allocates.grows

theorem sortComparison_orders {sort : SortChild} {nodes : List NodeId} {heap : Heap}
    {comparison : NodeId → NodeId → Bool}
    (compares : sortComparison env depth sort nodes heap = some comparison)
    (text : sort.numericSort = false) (list : List NodeId) : Orders comparison list := by
  unfold sortComparison at compares
  split at compares
  · cases compares
    constructor
    · intro left _ right _ impossible
      cases impossible
    · intro left _ middle _ right _ impossible
      cases impossible
  · rcases Option.bind_eq_some_iff.mp compares with ⟨⟨keys, last⟩, _, done⟩
    cases done
    exact exchanges_orders Num text (keyIn keys) list

/-! ## All sorts of an instruction -/

/-- The comparisons that the sorts make, each with the keys it has read. -/
def comparisons (env : Env Num) (depth : Nat) : List SortChild → Heap → Ptr →
    Option (List (NodeId → NodeId → Bool))
  | [], _, _ => some []
  | sort :: rest, heap, selection => do
      let comparison ← sortComparison env depth sort (← siblings heap selection) heap
      let (heap, selection) ← xpathSortSelection env depth heap selection sort
      some (comparison :: (← comparisons env depth rest heap selection))

theorem sortSelection_spec {sorts : List SortChild} {heap after : Heap} {selection sorted : Ptr}
    {nodes : List NodeId} (old : Old env.locals heap) (listed : siblings heap selection = some nodes)
    (done : sortSelection env depth sorts heap selection = some (after, sorted)) :
    Exists fun found => Exists fun nodes' =>
      comparisons env depth sorts heap selection = some found ∧ SortedInTurn found nodes nodes' ∧
      siblings after sorted = some nodes' ∧ (sorts.zip found).map Prod.snd = found ∧
      ∀ entry ∈ sorts.zip found, entry.1.numericSort = false → ∀ list, Orders entry.2 list := by
  induction sorts generalizing heap selection nodes with
  | nil =>
      cases done
      exact ⟨[], nodes, rfl, .nil nodes, listed, rfl, nofun⟩
  | cons sort rest inductionHypothesis =>
      rcases Option.bind_eq_some_iff.mp done with ⟨⟨middle, next⟩, first, done⟩
      rcases xpathSortSelection_siblings old listed first with
        ⟨comparison, nodes', compares, sorts, relisted, grows⟩
      have still : Old env.locals middle := fun l same => Nat.lt_of_lt_of_le (old l same) grows
      rcases inductionHypothesis still relisted done with
        ⟨found, last, others, inTurn, end_, all, texts⟩
      refine ⟨comparison :: found, last, ?_, .cons sorts inTurn, end_, ?_, ?_⟩
      · unfold comparisons
        rw [listed, Option.bind_eq_bind, Option.bind_some, compares, Option.bind_eq_bind,
          Option.bind_some, first, Option.bind_eq_bind, Option.bind_some]
        dsimp only
        rw [others]
        rfl
      · rw [List.zip_cons_cons, List.map_cons, all]
      · intro entry member text
        rw [List.zip_cons_cons] at member
        rcases List.mem_cons.mp member with rfl | later
        · exact sortComparison_orders compares text
        · exact texts entry later text

/-- The nodes have an order by their keys, the first key the most
significant, and are visited in it; equal nodes stand as they stood. -/
structure InLexicographicOrder (comparisons : List (NodeId → NodeId → Bool))
    (selected visited : List NodeId) : Prop where
  ordered : ∀ comparison ∈ comparisons, Orders comparison selected
  same : visited.Perm selected
  inOrder : visited.Pairwise (Lexicographic comparisons selected)

/-- The visit is in lexicographic order exactly where the first and the last
`xsl:sort` to tell two nodes apart put them into the same order. -/
theorem visited_inLexicographicOrder_iff (instruction : VisitingInstruction)
    (children : List InstructionChild) (current : NodeId) {before heap after : Heap}
    {selection : Ptr} {selected visited : List NodeId} (old : Old env.locals heap)
    (selects : instruction.selection env depth current before = some (selection, heap))
    (listed : siblings heap selection = some selected)
    (arrives : instruction.visited env depth children current before = some (after, visited)) :
    Exists fun found =>
      comparisons env depth (instruction.sorts children) heap selection = some found ∧
      (InLexicographicOrder found selected visited ↔
        (∀ entry ∈ (instruction.sorts children).zip found, entry.1.numericSort = true →
          Orders entry.2 selected) ∧
        ∀ left ∈ selected, ∀ right ∈ selected,
          (PutsFirst found left right ↔ PutsFirst found.reverse left right)) := by
  unfold VisitingInstruction.visited at arrives
  rw [selects, Option.bind_eq_bind, Option.bind_some] at arrives
  rcases Option.bind_eq_some_iff.mp arrives with ⟨⟨last, sorted⟩, done, arrives⟩
  rcases Option.bind_eq_some_iff.mp arrives with ⟨nodes, relisted, done'⟩
  cases done'
  rcases sortSelection_spec old listed done with ⟨found, nodes', compares, inTurn, end_, all, texts⟩
  rw [relisted] at end_
  cases end_
  have distinct := (follow_eq_some_iff.mp listed).1.nodup
  refine ⟨found, compares, ?_⟩
  constructor
  · intro lexicographic
    refine ⟨fun entry member _ => ?_, ?_⟩
    · refine lexicographic.ordered entry.2 ?_
      rw [← all]
      exact List.mem_map_of_mem member
    · exact (inTurn.lexicographic_iff distinct lexicographic.ordered).mp lexicographic.inOrder
  · rintro ⟨numbers, agree⟩
    have ordered : ∀ comparison ∈ found, Orders comparison selected := by
      intro comparison member
      rw [← all] at member
      rcases List.mem_map.mp member with ⟨entry, inZip, rfl⟩
      cases numeric : entry.1.numericSort with
      | true => exact numbers entry inZip numeric
      | false => exact texts entry inZip numeric selected
    exact ⟨ordered, inTurn.perm, (inTurn.lexicographic_iff distinct ordered).mpr agree⟩

end Evaluation

/-! ## Two keys that disagree -/

/-- Two elements, the second with the greater `p` and the smaller `q`. -/
def disagreeing : Bytes := lit "<r><a p=\"1\" q=\"2\"/><a p=\"2\" q=\"1\"/></r>"

/-- The document, and behind it a node for local variables. -/
def disagreeingHeap : Heap := (xmlNewNode (memoryAfter 120 disagreeing) none .empty).1

def disagreeingEnv : Env Int := { Env.bare Int 0 with locals := some 8 }

/-- `xsl:for-each` over the elements `a`. -/
def eachElement : VisitingInstruction := .forEach ((xpathCompile (lit "a")).getD .null)

/-- `xsl:sort` by an attribute. -/
def sortBy (attribute_ : Bytes) : SortChild := ⟨(xpathCompile attribute_).getD .null, 0⟩

/-- Sorted by `p` and then by `q`, the element with the greater `p` comes first. -/
theorem last_sort_decides :
    DoParse .empty disagreeing (some 0) (memoryAfter 120 disagreeing) ∧
    Exists fun heap => Exists fun selection => Exists fun after => Exists fun found =>
      eachElement.selection disagreeingEnv 0 1 disagreeingHeap = some (selection, heap) ∧
      siblings heap selection = some [10, 11] ∧
      eachElement.visited disagreeingEnv 0 [.sort (sortBy (lit "@p")), .sort (sortBy (lit "@q"))] 1
        disagreeingHeap = some (after, [11, 10]) ∧
      comparisons disagreeingEnv 0 [sortBy (lit "@p"), sortBy (lit "@q")] heap selection =
        some found ∧
      ¬ InLexicographicOrder found [10, 11] [11, 10] := by
  have selects : (eachElement.selection disagreeingEnv 0 1 disagreeingHeap).bind
      (fun result => siblings result.2 result.1) = some [10, 11] := by decide
  have visits : (eachElement.visited disagreeingEnv 0
      [.sort (sortBy (lit "@p")), .sort (sortBy (lit "@q"))] 1 disagreeingHeap).map Prod.snd =
        some [11, 10] := by decide
  have misplaced : (eachElement.selection disagreeingEnv 0 1 disagreeingHeap).bind (fun result =>
      (comparisons disagreeingEnv 0 [sortBy (lit "@p"), sortBy (lit "@q")] result.2 result.1).map
        fun found => decide (Lexicographic found [10, 11] 11 10)) = some false := by decide
  rcases Option.bind_eq_some_iff.mp selects with ⟨⟨selection, heap⟩, selected, listed⟩
  rcases Option.map_eq_some_iff.mp visits with ⟨⟨after, visited⟩, arrives, same⟩
  cases same
  rw [selected, Option.bind_some] at misplaced
  rcases Option.map_eq_some_iff.mp misplaced with ⟨found, compares, wrong⟩
  refine ⟨⟨120, rfl⟩, heap, selection, after, found, selected, listed, arrives, compares, ?_⟩
  intro lexicographic
  have first := pairwise_before.mp lexicographic.inOrder 11 10 (.refl _)
  exact of_decide_eq_false wrong first

/-- Sorted by `q` alone, the two elements are visited in its order. -/
theorem visited_inLexicographicOrder_iff_disagreeing : Exists fun heap => Exists fun selection =>
    Exists fun after => Exists fun found =>
      eachElement.visited disagreeingEnv 0 [.sort (sortBy (lit "@q")), .sort (sortBy (lit "@q"))] 1
        disagreeingHeap = some (after, [11, 10]) ∧
      comparisons disagreeingEnv 0 [sortBy (lit "@q"), sortBy (lit "@q")] heap selection =
        some found ∧
      (InLexicographicOrder found [10, 11] [11, 10] ↔
        (∀ entry ∈ [sortBy (lit "@q"), sortBy (lit "@q")].zip found, entry.1.numericSort = true →
          Orders entry.2 [10, 11]) ∧
        ∀ left ∈ [10, 11], ∀ right ∈ [10, 11],
          (PutsFirst found left right ↔ PutsFirst found.reverse left right)) := by
  have selects : (eachElement.selection disagreeingEnv 0 1 disagreeingHeap).bind
      (fun result => siblings result.2 result.1) = some [10, 11] := by decide
  have old : (eachElement.selection disagreeingEnv 0 1 disagreeingHeap).all
      (fun result => decide (8 < result.2.size)) = true := by decide
  have visits : (eachElement.visited disagreeingEnv 0
      [.sort (sortBy (lit "@q")), .sort (sortBy (lit "@q"))] 1 disagreeingHeap).map Prod.snd =
        some [11, 10] := by decide
  rcases Option.bind_eq_some_iff.mp selects with ⟨⟨selection, heap⟩, selected, listed⟩
  rcases Option.map_eq_some_iff.mp visits with ⟨⟨after, visited⟩, arrives, same⟩
  cases same
  rw [selected] at old
  have oldHeap : Old disagreeingEnv.locals heap := by
    rintro l ⟨⟩
    exact of_decide_eq_true old
  rcases visited_inLexicographicOrder_iff eachElement
    [.sort (sortBy (lit "@q")), .sort (sortBy (lit "@q"))] 1 oldHeap selected listed arrives with
    ⟨found, compares, meets⟩
  exact ⟨heap, selection, after, found, arrives, compares, meets⟩

end TurboXSL
