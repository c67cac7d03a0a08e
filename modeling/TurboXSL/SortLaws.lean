import TurboXSL.VisitPositions

namespace TurboXSL

open Library

/-!
# Sorts by a single key

What `xpath_sort_selection` returns, whatever keys its nodes have got: the same
nodes, in order in the direction of the sort, with equal keys in the order in
which they came, and linked and numbered anew.
-/

/-- What is known of the differences of `double`, and of their order. -/
class SubtractingDouble (Num : Type) [Double Num] : Prop where
  asymm : ∀ a b : Num, Double.less a b = true → Double.less b a = false
  between : ∀ a b c : Num, Double.isNan b = false → Double.less a c = true →
    Double.less a b = true ∨ Double.less b c = true
  forwards : ∀ a b : Num, Double.less (Double.ofInt 0)
    (Double.mul (Double.ofInt 1) (Double.sub a b)) = Double.less b a
  backwards : ∀ a b : Num, Double.less (Double.ofInt 0)
    (Double.mul (Double.ofInt (-1)) (Double.sub a b)) = Double.less a b

instance : SubtractingDouble Int where
  asymm := fun a b less => decide_eq_false (Int.not_lt.mpr (Int.le_of_lt (of_decide_eq_true less)))
  between := by
    intro a b c _ less
    have apart : a < c := of_decide_eq_true less
    change decide (a < b) = true ∨ decide (b < c) = true
    rw [decide_eq_true_eq, decide_eq_true_eq]
    omega
  forwards := by
    intro a b
    change decide (0 < 1 * (a - b)) = decide (b < a)
    rw [decide_eq_decide]
    omega
  backwards := by
    intro a b
    change decide (0 < -1 * (a - b)) = decide (a < b)
    rw [decide_eq_decide]
    omega

namespace SortChild

variable (Num : Type) [Double Num] (sort : SortChild)

/-- `sort->flags&XML_FLAG_DESCENDING` -/
def descending : Bool := sort.flags.testBit 3

/-- The first key may stand before the second. -/
def InOrder (left right : Option Bytes) : Prop :=
  match sort.numericSort, sort.descending with
  | false, false => xmlStrcasecmp left right ≤ 0
  | false, true => 0 ≤ xmlStrcasecmp left right
  | true, false => Double.less (numericKey Num right) (numericKey Num left) = false
  | true, true => Double.less (numericKey Num left) (numericKey Num right) = false

/-- The sort does not tell these keys apart. -/
def Equal (left right : Option Bytes) : Prop :=
  sort.InOrder Num left right ∧ sort.InOrder Num right left

/-- Numbers are no NaN. -/
def Comparable (key : Option Bytes) : Prop :=
  sort.numericSort = true → Double.isNan (numericKey Num key) = false

variable [SubtractingDouble Num]

/-- Neighbours are exchanged if they are not in order. -/
theorem exchanges_eq_false_iff (left right : Option Bytes) :
    sort.exchanges Num left right = false ↔ sort.InOrder Num left right := by
  unfold exchanges InOrder backwardSort descending
  cases sort.numericSort with
  | false =>
      cases sort.flags.testBit 3 with
      | false =>
          change decide (0 < 1 * xmlStrcasecmp left right) = false ↔ xmlStrcasecmp left right ≤ 0
          rw [decide_eq_false_iff_not]
          omega
      | true =>
          change decide (0 < -1 * xmlStrcasecmp left right) = false ↔ 0 ≤ xmlStrcasecmp left right
          rw [decide_eq_false_iff_not]
          omega
  | true =>
      cases sort.flags.testBit 3 with
      | false => exact iff_of_eq (congrArg (· = false) (SubtractingDouble.forwards _ _))
      | true => exact iff_of_eq (congrArg (· = false) (SubtractingDouble.backwards _ _))

/-- Keys that can be compared are ordered. -/
theorem exchanges_orders_keys {keys : List (NodeId × Option Bytes)}
    (comparable : ∀ key ∈ keys, sort.Comparable Num key.2) :
    Orders (fun left right => sort.exchanges Num left.2 right.2) keys := by
  cases numeric : sort.numericSort with
  | false => exact exchanges_orders Num numeric Prod.snd keys
  | true =>
      have read (left right : Option Bytes) : sort.exchanges Num left right =
          if sort.descending then Double.less (numericKey Num left) (numericKey Num right)
          else Double.less (numericKey Num right) (numericKey Num left) := by
        unfold exchanges backwardSort descending
        rw [numeric, if_pos rfl]
        cases sort.flags.testBit 3 with
        | false => exact SubtractingDouble.forwards _ _
        | true => exact SubtractingDouble.backwards _ _
      constructor
      · intro left _ right _ greater
        rw [read] at greater ⊢
        cases way : sort.descending with
        | false =>
            rw [way] at greater
            exact SubtractingDouble.asymm _ _ greater
        | true =>
            rw [way] at greater
            exact SubtractingDouble.asymm _ _ greater
      · intro left _ middle member right _ greater
        have number := comparable middle member numeric
        rw [read] at greater ⊢
        rw [read]
        cases way : sort.descending with
        | false =>
            rw [way] at greater
            exact (SubtractingDouble.between _ _ _ number greater).symm
        | true =>
            rw [way] at greater
            exact SubtractingDouble.between _ _ _ number greater

end SortChild

/-! ## The list that a sort leaves -/

/-- A list linked in both directions, with its nodes numbered from one on. -/
structure Relinked (heap : Heap) (first : Ptr) (nodes : List NodeId) : Prop where
  chain : Siblings heap first nodes
  begins : ∀ n, nodes.head? = some n → (heap.get n).prev = none
  ends : ∀ n, nodes.getLast? = some n → (heap.get n).next = none
  inverse : ∀ n ∈ nodes, ∀ m ∈ nodes, (heap.get n).next = some m ↔ (heap.get m).prev = some n
  positions : Numbered heap nodes

theorem relink_relinked (heap : Heap) {nodes : List NodeId} (distinct : nodes.Nodup) :
    Relinked (relink heap none 0 nodes) nodes.head? nodes where
  chain := relink_chain heap none 0 distinct
  begins := by
    intro n first
    cases nodes with
    | nil => cases first
    | cons node rest =>
        rw [← Option.some.inj first]
        have here := relink_get heap none 0 [] (show ([] ++ node :: rest).Nodup from distinct)
        exact congrArg XmlNode.prev here
  ends := fun n last => (relink_chain heap none 0 distinct).ends last
  inverse := by
    intro n first m second
    constructor
    · intro link
      rcases List.mem_iff_append.mp first with ⟨front, rest, split⟩
      have here := relink_get heap none 0 front (split ▸ distinct)
      rw [← split] at here
      rw [here] at link
      rcases List.head?_eq_some_iff.mp link with ⟨rest, rfl⟩
      have later : nodes = (front ++ [n]) ++ m :: rest := by
        rw [split, List.append_assoc]
        rfl
      have there := relink_get heap none 0 (front ++ [n]) (later ▸ distinct)
      rw [← later, List.getLast?_concat, Option.some_or] at there
      rw [there]
    · intro link
      rcases List.mem_iff_append.mp second with ⟨front, rest, split⟩
      have there := relink_get heap none 0 front (split ▸ distinct)
      rw [← split, Option.or_none] at there
      rw [there] at link
      rcases List.getLast?_eq_some_iff.mp link with ⟨front, rfl⟩
      have earlier : nodes = front ++ n :: (m :: rest) := by
        rw [split, List.append_assoc]
        rfl
      have here := relink_get heap none 0 front (earlier ▸ distinct)
      rw [← earlier] at here
      rw [here]
      rfl
  positions := relink_numbered heap distinct

section Evaluation

variable {Num : Type} [Double Num] {env : Env Num} {depth : Nat}

/-- The keys are read of the nodes in turn. -/
theorem sortKeys_nodes {sort : SortChild} {nodes : List NodeId} {heap after : Heap}
    {keys : List (NodeId × Option Bytes)}
    (read : sortKeys env depth sort nodes heap = some (keys, after)) :
    keys.map Prod.fst = nodes := by
  induction nodes generalizing heap keys with
  | nil =>
      cases read
      rfl
  | cons node rest inductionHypothesis =>
      rcases Option.bind_eq_some_iff.mp read with ⟨⟨key, middle⟩, _, read⟩
      rcases Option.bind_eq_some_iff.mp read with ⟨⟨others, last⟩, later, done⟩
      cases done
      exact congrArg (node :: ·) (inductionHypothesis later)

/-- With its keys read, a list of several nodes is sorted and linked anew. -/
theorem xpathSortSelection_eq {sort : SortChild} {heap middle : Heap} {selection : Ptr}
    {nodes : List NodeId} {keys : List (NodeId × Option Bytes)}
    (listed : siblings heap selection = some nodes) (several : 2 ≤ nodes.length)
    (read : sortKeys env depth sort nodes heap = some (keys, middle)) :
    xpathSortSelection env depth heap selection sort =
      (bubbleSort (fun left right => sort.exchanges Num left.2 right.2) keys).map fun sorted =>
        (relink middle none 0 (sorted.map Prod.fst), (sorted.map Prod.fst).head?) := by
  have chain := (follow_eq_some_iff.mp listed).1
  unfold xpathSortSelection
  cases chain with
  | nil => cases several
  | cons head rest tail =>
      have more : (heap.get head).next ≠ none := by
        intro alone
        rw [alone] at tail
        cases tail
        exact absurd several (Nat.not_le.mpr (Nat.lt_succ_self 1))
      dsimp only
      rw [if_neg more, listed, Option.bind_eq_bind, Option.bind_some, read]
      change (bubbleSort _ keys).bind _ = _
      cases bubbleSort (fun left right => sort.exchanges Num left.2 right.2) keys <;> rfl

/-- A selection is sorted by its keys, in the direction of the sort, and what
has equal keys stays in order. -/
theorem sort_selection_in_order [SubtractingDouble Num] {sort : SortChild} {heap middle : Heap}
    {selection : Ptr} {nodes : List NodeId} {keys : List (NodeId × Option Bytes)}
    (listed : siblings heap selection = some nodes) (several : 2 ≤ nodes.length)
    (read : sortKeys env depth sort nodes heap = some (keys, middle))
    (comparable : ∀ key ∈ keys, sort.Comparable Num key.2) :
    Exists fun after => Exists fun first => Exists fun sorted =>
      xpathSortSelection env depth heap selection sort = some (after, first) ∧
      keys.map Prod.fst = nodes ∧ sorted.Perm keys ∧
      sorted.Pairwise (fun left right => sort.InOrder Num left.2 right.2) ∧
      (∀ left right, [left, right].Sublist keys → sort.Equal Num left.2 right.2 →
        [left, right].Sublist sorted) ∧
      Relinked after first (sorted.map Prod.fst) := by
  have orders := sort.exchanges_orders_keys Num comparable
  rcases bubbleSort_total orders.asymmetric with ⟨sorted, done⟩
  have spec := exchangeRounds_spec done
  have nodes_ := sortKeys_nodes read
  have distinct : (sorted.map Prod.fst).Nodup := by
    rw [(spec.1.map Prod.fst).nodup_iff, nodes_]
    exact (follow_eq_some_iff.mp listed).1.nodup
  refine ⟨_, _, sorted, ?_, nodes_, spec.1, ?_, ?_, relink_relinked middle distinct⟩
  · rw [xpathSortSelection_eq listed several read, done]
    rfl
  · refine ((orders.perm spec.1).pairwise spec.2.1).imp fun {left right} kept => ?_
    exact (sort.exchanges_eq_false_iff Num left.2 right.2).mp kept
  · intro left right before equal
    exact spec.2.2 left right ((sort.exchanges_eq_false_iff Num left.2 right.2).mpr equal.1) before

end Evaluation

/-- Two elements, the second with the smaller number in the attribute `q`. -/
theorem sort_selection_in_order_numbers :
    let sort : SortChild := ⟨(xpathCompile (lit "@q")).getD .null, 4⟩
    Exists fun heap => Exists fun selection => Exists fun after => Exists fun first =>
      Exists fun sorted : List (NodeId × Option Bytes) =>
        xpathSortSelection disagreeingEnv 0 heap selection sort = some (after, first) ∧
        sorted.Perm [(10, some (lit "2")), (11, some (lit "1"))] ∧
        sorted.Pairwise (fun left right => sort.InOrder Int left.2 right.2) ∧
        Relinked after first (sorted.map Prod.fst) := by
  intro sort
  have selects : (eachElement.selection disagreeingEnv 0 1 disagreeingHeap).bind
      (fun result => siblings result.2 result.1) = some [10, 11] := by decide
  have reads : (eachElement.selection disagreeingEnv 0 1 disagreeingHeap).bind
      (fun result => (sortKeys disagreeingEnv 0 sort [10, 11] result.2).map Prod.fst) =
        some [(10, some (lit "2")), (11, some (lit "1"))] := by decide
  rcases Option.bind_eq_some_iff.mp selects with ⟨⟨selection, heap⟩, selected, listed⟩
  rw [selected, Option.bind_some] at reads
  rcases Option.map_eq_some_iff.mp reads with ⟨⟨keys, middle⟩, read, same⟩
  cases same
  rcases sort_selection_in_order listed (Nat.le_refl 2) read (fun _ _ _ => rfl) with
    ⟨after, first, sorted, done, _, perm, ordered, _, linked⟩
  exact ⟨heap, selection, after, first, sorted, done, perm, ordered, linked⟩

end TurboXSL
