import Mathlib.Data.List.Nodup
import Mathlib.Data.List.Pairwise

namespace Library

/-!
# Exchange of neighbours until all is in order

A list is sorted by rounds over it that exchange neighbours, until a round
exchanges none.  The order need not be total: what the comparison does not
tell apart keeps its place.  Several such sorts, one after the other, put the
elements into the lexicographic order of their comparisons, the one applied
last being the most significant.
-/

universe u v

variable {Element : Type u} {Image : Type v}

/-- A round over a list, with the element that has been moved on so far;
and whether any two were exchanged. -/
def exchangeRound (greater : Element → Element → Bool) (carried : Element) :
    List Element → List Element × Bool
  | [] => ([carried], false)
  | next :: rest =>
      if greater carried next then (next :: (exchangeRound greater carried rest).1, true)
      else (carried :: (exchangeRound greater next rest).1, (exchangeRound greater next rest).2)

/-- Rounds until one exchanges nothing, at most so many. -/
def exchangeRounds (greater : Element → Element → Bool) : Nat → List Element → Option (List Element)
  | _, [] => some []
  | 0, _ => none
  | fuel + 1, first :: rest =>
      if (exchangeRound greater first rest).2
        then exchangeRounds greater fuel (exchangeRound greater first rest).1
        else some (first :: rest)

/-- Enough rounds for any list. -/
def bubbleSort (greater : Element → Element → Bool) (list : List Element) : Option (List Element) :=
  exchangeRounds greater (list.length * list.length + 1) list

/-- The comparison orders the elements, up to those it does not tell apart. -/
structure Orders (greater : Element → Element → Bool) (list : List Element) : Prop where
  asymmetric : ∀ left ∈ list, ∀ right ∈ list, greater left right = true → greater right left = false
  between : ∀ left ∈ list, ∀ middle ∈ list, ∀ right ∈ list, greater left right = true →
    greater left middle = true ∨ greater middle right = true

/-- The first of the comparisons that tells the two apart puts `left` first. -/
def PutsFirst (comparisons : List (Element → Element → Bool)) (left right : Element) : Prop :=
  Exists fun greater => comparisons.find? (fun greater => greater left right || greater right left) =
    some greater ∧ greater right left = true

/-- None of the comparisons tells the two apart. -/
def Alike (comparisons : List (Element → Element → Bool)) (left right : Element) : Prop :=
  ∀ greater ∈ comparisons, greater left right = false ∧ greater right left = false

/-- The lexicographic order of the comparisons, the first the most
significant; what they do not tell apart stands as in the list. -/
def Lexicographic (comparisons : List (Element → Element → Bool)) (list : List Element)
    (left right : Element) : Prop :=
  PutsFirst comparisons left right ∨ Alike comparisons left right ∧ [left, right].Sublist list

theorem putsFirst_iff_any {comparisons : List (Element → Element → Bool)} {left right : Element} :
    PutsFirst comparisons left right ↔
      (comparisons.find? fun greater => greater left right || greater right left).any
        (fun greater => greater right left) = true := by
  unfold PutsFirst
  rw [Option.any_eq_true]

instance (comparisons : List (Element → Element → Bool)) (left right : Element) :
    Decidable (PutsFirst comparisons left right) :=
  decidable_of_iff _ putsFirst_iff_any.symm

instance (comparisons : List (Element → Element → Bool)) (left right : Element) :
    Decidable (Alike comparisons left right) :=
  inferInstanceAs (Decidable (∀ greater ∈ comparisons, _))

instance [DecidableEq Element] (comparisons : List (Element → Element → Bool)) (list : List Element)
    (left right : Element) : Decidable (Lexicographic comparisons list left right) :=
  inferInstanceAs (Decidable (_ ∨ _))

/-- One sort for each comparison, in turn. -/
inductive SortedInTurn : List (Element → Element → Bool) → List Element → List Element → Prop where
  | nil (list : List Element) : SortedInTurn [] list list
  | cons {greater : Element → Element → Bool} {rest : List (Element → Element → Bool)}
      {list sorted last : List Element} (first : bubbleSort greater list = some sorted)
      (others : SortedInTurn rest sorted last) : SortedInTurn (greater :: rest) list last

/-! ## What stands before what -/

section Before

variable {left right : Element} {list : List Element}

theorem before_mem (before : [left, right].Sublist list) : left ∈ list ∧ right ∈ list :=
  ⟨before.subset List.mem_cons_self, before.subset (List.mem_cons_of_mem _ List.mem_cons_self)⟩

theorem before_cons_iff {first : Element} : [left, right].Sublist (first :: list) ↔
    [left, right].Sublist list ∨ left = first ∧ right ∈ list := by
  constructor
  · intro before
    cases before with
    | cons _ rest => exact .inl rest
    | cons_cons _ rest => exact .inr ⟨rfl, List.singleton_sublist.mp rest⟩
  · rintro (rest | ⟨rfl, member⟩)
    · exact rest.cons first
    · exact (List.singleton_sublist.mpr member).cons_cons left

theorem before_or_after (leftMember : left ∈ list) (rightMember : right ∈ list)
    (apart : left ≠ right) : [left, right].Sublist list ∨ [right, left].Sublist list := by
  induction list with
  | nil => cases leftMember
  | cons first rest inductionHypothesis =>
      simp only [before_cons_iff]
      rcases List.mem_cons.mp leftMember with rfl | leftLater
      · exact .inl (.inr ⟨rfl, (List.mem_cons.mp rightMember).resolve_left apart.symm⟩)
      · rcases List.mem_cons.mp rightMember with rfl | rightLater
        · exact .inr (.inr ⟨rfl, leftLater⟩)
        · rcases inductionHypothesis leftLater rightLater with before | after
          · exact .inl (.inl before)
          · exact .inr (.inl after)

theorem before_ne (distinct : list.Nodup) (before : [left, right].Sublist list) : left ≠ right := by
  have nodup := before.nodup distinct
  exact List.ne_of_not_mem_cons (List.nodup_cons.mp nodup).1

theorem before_asymm (distinct : list.Nodup) (before : [left, right].Sublist list) :
    ¬ [right, left].Sublist list := by
  induction list with
  | nil => cases before
  | cons first rest inductionHypothesis =>
      have fresh := (List.nodup_cons.mp distinct).1
      intro after
      rcases before_cons_iff.mp before with later | ⟨rfl, member⟩
      · rcases before_cons_iff.mp after with both | ⟨rfl, _⟩
        · exact inductionHypothesis (List.nodup_cons.mp distinct).2 later both
        · exact fresh (before_mem later).2
      · rcases before_cons_iff.mp after with both | ⟨rfl, _⟩
        · exact fresh (before_mem both).2
        · exact fresh member

end Before

/-! ## One round -/

section Round

variable {greater : Element → Element → Bool}

theorem exchangeRound_perm (greater : Element → Element → Bool) (carried : Element) (list : List Element) :
    ((exchangeRound greater carried list).1).Perm (carried :: list) := by
  induction list generalizing carried with
  | nil => exact .refl _
  | cons next rest inductionHypothesis =>
      unfold exchangeRound
      split
      · exact ((inductionHypothesis carried).cons next).trans (.swap carried next rest)
      · exact (inductionHypothesis next).cons carried

/-- Two elements are exchanged only where the first is greater. -/
theorem exchangeRound_before {left right : Element} (ordered : greater left right = false)
    (carried : Element) (list : List Element) (before : [left, right].Sublist (carried :: list)) :
    [left, right].Sublist (exchangeRound greater carried list).1 := by
  induction list generalizing carried with
  | nil => exact before
  | cons next rest inductionHypothesis =>
      unfold exchangeRound
      split
      next exchanged =>
        rw [before_cons_iff, before_cons_iff] at before
        refine before_cons_iff.mpr ?_
        rcases before with (later | ⟨rfl, member⟩) | ⟨rfl, member⟩
        · exact .inl (inductionHypothesis carried (later.cons carried))
        · refine .inr ⟨rfl, ?_⟩
          exact (exchangeRound_perm greater carried rest).mem_iff.mpr (List.mem_cons_of_mem _ member)
        · rcases List.mem_cons.mp member with rfl | later
          · rw [ordered] at exchanged
            cases exchanged
          · exact .inl (inductionHypothesis left (before_cons_iff.mpr (.inr ⟨rfl, later⟩)))
      next kept =>
        refine before_cons_iff.mpr ?_
        rcases before_cons_iff.mp before with later | ⟨rfl, member⟩
        · exact .inl (inductionHypothesis next later)
        · exact .inr ⟨rfl, (exchangeRound_perm greater next rest).mem_iff.mpr member⟩

/-- A round without an exchange has met neighbours in order only. -/
theorem exchangeRound_done {carried : Element} {list : List Element}
    (still : (exchangeRound greater carried list).2 = false) :
    (carried :: list).IsChain fun left right => greater left right = false := by
  induction list generalizing carried with
  | nil => exact .singleton carried
  | cons next rest inductionHypothesis =>
      unfold exchangeRound at still
      split at still
      · cases still
      next kept => exact .cons_cons (eq_false_of_ne_true kept) (inductionHypothesis still)

/-- How many pairs stand in the wrong order. -/
def disorder (greater : Element → Element → Bool) : List Element → Nat
  | [] => 0
  | first :: rest => rest.countP (greater first) + disorder greater rest

theorem disorder_le (list : List Element) : disorder greater list ≤ list.length * list.length := by
  induction list with
  | nil => exact Nat.le_refl _
  | cons first rest inductionHypothesis =>
      have here : rest.countP (greater first) ≤ rest.length := List.countP_le_length
      unfold disorder
      rw [List.length_cons, Nat.succ_mul_succ]
      omega

/-- Every exchange puts one pair in order and no other out of it. -/
theorem exchangeRound_disorder (carried : Element) (list : List Element)
    (asymmetric : ∀ left ∈ carried :: list, ∀ right ∈ carried :: list,
      greater left right = true → greater right left = false) :
    disorder greater (exchangeRound greater carried list).1 +
        (if (exchangeRound greater carried list).2 then 1 else 0) ≤
      disorder greater (carried :: list) := by
  induction list generalizing carried with
  | nil => exact Nat.le_refl _
  | cons next rest inductionHypothesis =>
      unfold exchangeRound
      split
      next exchanged =>
        have further := inductionHypothesis carried (by
          intro left leftMember right rightMember
          refine asymmetric left ?_ right ?_
          · exact List.cons_subset_cons carried (List.subset_cons_self next rest) leftMember
          · exact List.cons_subset_cons carried (List.subset_cons_self next rest) rightMember)
        have counted := (exchangeRound_perm greater carried rest).countP_eq (greater next)
        have back := asymmetric carried List.mem_cons_self next
          (List.mem_cons_of_mem _ List.mem_cons_self) exchanged
        simp only [disorder, List.countP_cons, back, exchanged, counted, if_true, Bool.false_eq_true,
          if_false] at further ⊢
        omega
      next kept =>
        have further := inductionHypothesis next fun left leftMember right rightMember =>
          asymmetric left (List.mem_cons_of_mem _ leftMember) right (List.mem_cons_of_mem _ rightMember)
        have counted := (exchangeRound_perm greater next rest).countP_eq (greater carried)
        simp only [disorder, counted] at further ⊢
        omega

end Round

/-! ## The whole sort -/

section Sorting

variable {greater : Element → Element → Bool}

/-- What the rounds leave: the same elements, in order between neighbours,
and with nothing exchanged that was in order. -/
theorem exchangeRounds_spec {fuel : Nat} {list sorted : List Element}
    (done : exchangeRounds greater fuel list = some sorted) :
    sorted.Perm list ∧ sorted.IsChain (fun left right => greater left right = false) ∧
      ∀ left right, greater left right = false → [left, right].Sublist list →
        [left, right].Sublist sorted := by
  induction fuel generalizing list with
  | zero =>
      cases list with
      | nil =>
          cases done
          exact ⟨.refl _, .nil, fun _ _ _ before => before⟩
      | cons first rest => cases done
  | succ fuel inductionHypothesis =>
      cases list with
      | nil =>
          cases done
          exact ⟨.refl _, .nil, fun _ _ _ before => before⟩
      | cons first rest =>
          unfold exchangeRounds at done
          split at done
          · have further := inductionHypothesis done
            refine ⟨further.1.trans (exchangeRound_perm greater first rest), further.2.1, ?_⟩
            intro left right ordered before
            exact further.2.2 left right ordered (exchangeRound_before ordered first rest before)
          next still =>
            cases done
            exact ⟨.refl _, exchangeRound_done (eq_false_of_ne_true still), fun _ _ _ before => before⟩

theorem exchangeRounds_total {fuel : Nat} {list : List Element}
    (asymmetric : ∀ left ∈ list, ∀ right ∈ list,
      greater left right = true → greater right left = false)
    (enough : disorder greater list < fuel) :
    Exists fun sorted => exchangeRounds greater fuel list = some sorted := by
  induction fuel generalizing list with
  | zero => cases enough
  | succ fuel inductionHypothesis =>
      cases list with
      | nil => exact ⟨[], rfl⟩
      | cons first rest =>
          unfold exchangeRounds
          split
          next exchanged =>
            have less := exchangeRound_disorder first rest asymmetric
            rw [exchanged] at less
            have same := exchangeRound_perm greater first rest
            refine inductionHypothesis ?_ (Nat.lt_of_succ_le (Nat.le_trans less (Nat.le_of_lt_succ enough)))
            intro left leftMember right rightMember
            exact asymmetric left (same.mem_iff.mp leftMember) right (same.mem_iff.mp rightMember)
          · exact ⟨first :: rest, rfl⟩

/-- The sort comes to an end. -/
theorem bubbleSort_total {list : List Element}
    (asymmetric : ∀ left ∈ list, ∀ right ∈ list,
      greater left right = true → greater right left = false) :
    Exists fun sorted => bubbleSort greater list = some sorted :=
  exchangeRounds_total asymmetric (Nat.lt_succ_of_le (disorder_le list))

theorem bubbleSort_perm {list sorted : List Element} (done : bubbleSort greater list = some sorted) :
    sorted.Perm list := (exchangeRounds_spec done).1

theorem Orders.perm {list other : List Element} (orders : Orders greater list)
    (same : other.Perm list) : Orders greater other where
  asymmetric := fun left leftMember right rightMember =>
    orders.asymmetric left (same.mem_iff.mp leftMember) right (same.mem_iff.mp rightMember)
  between := fun left leftMember middle middleMember right rightMember =>
    orders.between left (same.mem_iff.mp leftMember) middle (same.mem_iff.mp middleMember) right
      (same.mem_iff.mp rightMember)

/-- Neighbours in order make a list in order. -/
theorem Orders.pairwise {list : List Element} (orders : Orders greater list)
    (chain : list.IsChain fun left right => greater left right = false) :
    list.Pairwise fun left right => greater left right = false := by
  induction list with
  | nil => exact .nil
  | cons first rest inductionHypothesis =>
      have later : Orders greater rest := {
        asymmetric := fun left leftMember right rightMember => orders.asymmetric left
          (List.mem_cons_of_mem _ leftMember) right (List.mem_cons_of_mem _ rightMember)
        between := fun left leftMember middle middleMember right rightMember => orders.between left
          (List.mem_cons_of_mem _ leftMember) middle (List.mem_cons_of_mem _ middleMember) right
          (List.mem_cons_of_mem _ rightMember) }
      have ordered := inductionHypothesis later chain.of_cons
      refine .cons ?_ ordered
      intro last member
      cases rest with
      | nil => cases member
      | cons next others =>
          have here : greater first next = false := (List.isChain_cons_cons.mp chain).1
          rcases List.mem_cons.mp member with rfl | beyond
          · exact here
          · refine eq_false_of_ne_true fun wrong => ?_
            have there := (List.pairwise_cons.mp ordered).1 last beyond
            have nextMember : next ∈ first :: next :: others :=
              List.mem_cons_of_mem _ List.mem_cons_self
            rcases orders.between first List.mem_cons_self next nextMember last
              (List.mem_cons_of_mem _ member) wrong with impossible | impossible
            · rw [here] at impossible
              cases impossible
            · rw [there] at impossible
              cases impossible

theorem pairwise_before {relation : Element → Element → Prop} {list : List Element} :
    list.Pairwise relation ↔
      ∀ left right, [left, right].Sublist list → relation left right := by
  rw [List.pairwise_iff_forall_sublist]

/-- In the result, the smaller stands first, and what is not told apart
stands as before. -/
theorem bubbleSort_before_iff {list sorted : List Element} (distinct : list.Nodup)
    (orders : Orders greater list) (done : bubbleSort greater list = some sorted)
    {left right : Element} (leftMember : left ∈ list) (rightMember : right ∈ list)
    (apart : left ≠ right) : [left, right].Sublist sorted ↔
      greater right left = true ∨ greater left right = false ∧ [left, right].Sublist list := by
  have spec := exchangeRounds_spec done
  have distinctSorted : sorted.Nodup := spec.1.nodup_iff.mpr distinct
  have ordered := pairwise_before.mp ((orders.perm spec.1).pairwise spec.2.1)
  have inSorted := before_or_after (spec.1.mem_iff.mpr leftMember) (spec.1.mem_iff.mpr rightMember) apart
  constructor
  · intro before
    have kept := ordered left right before
    rcases before_or_after leftMember rightMember apart with first | second
    · exact .inr ⟨kept, first⟩
    · refine .inl (eq_true_of_ne_false fun notGreater => ?_)
      exact before_asymm distinctSorted before (spec.2.2 right left notGreater second)
  · rintro (smaller | ⟨kept, before⟩)
    · refine inSorted.resolve_right fun after => ?_
      rw [ordered right left after] at smaller
      cases smaller
    · exact spec.2.2 left right kept before

/-- Sorting the images is sorting by the comparison of the images. -/
theorem exchangeRound_map (image : Element → Image) (compare : Image → Image → Bool)
    (carried : Element) (list : List Element) :
    exchangeRound compare (image carried) (list.map image) =
      (((exchangeRound (fun left right => compare (image left) (image right)) carried list).1).map image,
        (exchangeRound (fun left right => compare (image left) (image right)) carried list).2) := by
  induction list generalizing carried with
  | nil => rfl
  | cons next rest inductionHypothesis =>
      simp only [List.map_cons, exchangeRound]
      split
      · rw [inductionHypothesis carried]
        rfl
      · rw [inductionHypothesis next]
        rfl

theorem exchangeRounds_map (image : Element → Image) (compare : Image → Image → Bool) (fuel : Nat)
    (list : List Element) : exchangeRounds compare fuel (list.map image) =
      (exchangeRounds (fun left right => compare (image left) (image right)) fuel list).map
        (List.map image) := by
  induction fuel generalizing list with
  | zero => cases list <;> rfl
  | succ fuel inductionHypothesis =>
      cases list with
      | nil => rfl
      | cons first rest =>
          simp only [List.map_cons, exchangeRounds, exchangeRound_map]
          split
          · exact inductionHypothesis _
          · rfl

theorem bubbleSort_map (image : Element → Image) (compare : Image → Image → Bool)
    (list : List Element) : bubbleSort compare (list.map image) =
      (bubbleSort (fun left right => compare (image left) (image right)) list).map
        (List.map image) := by
  unfold bubbleSort
  rw [List.length_map]
  exact exchangeRounds_map image compare _ list

end Sorting

/-! ## Several sorts in turn -/

section InTurn

variable {comparisons : List (Element → Element → Bool)} {list sorted : List Element}
  {left right : Element}

theorem alike_cons {greater : Element → Element → Bool} : Alike (greater :: comparisons) left right ↔
    (greater left right = false ∧ greater right left = false) ∧ Alike comparisons left right :=
  List.forall_mem_cons

theorem alike_append_singleton {greater : Element → Element → Bool} :
    Alike (comparisons ++ [greater]) left right ↔
      Alike comparisons left right ∧ greater left right = false ∧ greater right left = false := by
  unfold Alike
  simp only [List.forall_mem_append, List.forall_mem_singleton]

theorem alike_reverse : Alike comparisons.reverse left right ↔ Alike comparisons left right := by
  unfold Alike
  simp only [List.mem_reverse]

/-- A further comparison decides where the ones before do not. -/
theorem putsFirst_append_singleton {greater : Element → Element → Bool} :
    PutsFirst (comparisons ++ [greater]) left right ↔
      PutsFirst comparisons left right ∨
        Alike comparisons left right ∧ greater right left = true := by
  unfold PutsFirst
  rw [List.find?_append]
  cases found : comparisons.find? fun greater => greater left right || greater right left with
  | some first =>
      constructor
      · rintro ⟨decider, same, puts⟩
        exact .inl ⟨decider, same, puts⟩
      · rintro (⟨decider, same, puts⟩ | ⟨alike, _⟩)
        · exact ⟨decider, same, puts⟩
        · have member := List.mem_of_find?_eq_some found
          have apart := List.find?_some found
          have none_ := alike first member
          simp only [none_.1, none_.2, Bool.or_self] at apart
          cases apart
  | none =>
      have alike : Alike comparisons left right := by
        intro greater member
        have same := List.find?_eq_none.mp found greater member
        exact Bool.or_eq_false_iff.mp (eq_false_of_ne_true same)
      simp only [Option.none_or, List.find?_singleton]
      constructor
      · rintro ⟨decider, same, puts⟩
        split at same
        · cases same
          exact .inr ⟨alike, puts⟩
        · cases same
      · rintro (⟨decider, impossible, _⟩ | ⟨_, puts⟩)
        · cases impossible
        · refine ⟨greater, ?_, puts⟩
          rw [puts, Bool.or_true, if_pos rfl]

/-- Whatever is not alike is put into one order or the other. -/
theorem putsFirst_or (different : ¬ Alike comparisons left right) :
    PutsFirst comparisons left right ∨ PutsFirst comparisons right left := by
  cases found : comparisons.find? fun greater => greater left right || greater right left with
  | none =>
      refine (different ?_).elim
      intro greater member
      have same := List.find?_eq_none.mp found greater member
      exact Bool.or_eq_false_iff.mp (eq_false_of_ne_true same)
  | some greater =>
      have apart := List.find?_some found
      have swapped : (fun greater : Element → Element → Bool =>
          greater right left || greater left right) = fun greater =>
          greater left right || greater right left := by
        funext other
        exact Bool.or_comm _ _
      rcases Bool.or_eq_true_iff.mp apart with puts | puts
      · refine .inr ⟨greater, ?_, puts⟩
        rw [swapped]
        exact found
      · exact .inl ⟨greater, found, puts⟩

theorem PutsFirst.not_alike (puts : PutsFirst comparisons left right) :
    ¬ Alike comparisons left right := by
  rcases puts with ⟨greater, found, first⟩
  intro alike
  rw [(alike greater (List.mem_of_find?_eq_some found)).2] at first
  cases first

theorem PutsFirst.asymm (orders : ∀ greater ∈ comparisons, Orders greater list)
    (leftMember : left ∈ list) (rightMember : right ∈ list)
    (puts : PutsFirst comparisons left right) : ¬ PutsFirst comparisons right left := by
  rcases puts with ⟨greater, found, first⟩
  rintro ⟨other, otherFound, otherFirst⟩
  have swapped : (fun greater : Element → Element → Bool =>
      greater right left || greater left right) = fun greater =>
      greater left right || greater right left := by
    funext other
    exact Bool.or_comm _ _
  rw [swapped, found] at otherFound
  cases otherFound
  have member := List.mem_of_find?_eq_some found
  rw [(orders greater member).asymmetric left leftMember right rightMember otherFirst] at first
  cases first

theorem SortedInTurn.perm (sorts : SortedInTurn comparisons list sorted) : sorted.Perm list := by
  induction sorts with
  | nil list => exact .refl _
  | cons first _ inductionHypothesis => exact inductionHypothesis.trans (bubbleSort_perm first)

theorem SortedInTurn.unique {other : List Element} (sorts : SortedInTurn comparisons list sorted)
    (again : SortedInTurn comparisons list other) : sorted = other := by
  induction sorts with
  | nil list =>
      cases again
      rfl
  | cons first _ inductionHypothesis =>
      cases again with
      | cons first' others =>
          rw [first] at first'
          cases first'
          exact inductionHypothesis others

/-- Sorts in turn put the last comparison first. -/
theorem SortedInTurn.before_iff (sorts : SortedInTurn comparisons list sorted)
    (distinct : list.Nodup) (orders : ∀ greater ∈ comparisons, Orders greater list)
    (leftMember : left ∈ list) (rightMember : right ∈ list) (apart : left ≠ right) :
    [left, right].Sublist sorted ↔ Lexicographic comparisons.reverse list left right := by
  induction sorts with
  | nil list =>
      constructor
      · intro before
        exact .inr ⟨nofun, before⟩
      · rintro (⟨_, impossible, _⟩ | ⟨_, before⟩)
        · cases impossible
        · exact before
  | @cons greater rest list middle sorted first others inductionHypothesis =>
      have same := bubbleSort_perm first
      have further := inductionHypothesis (same.nodup_iff.mpr distinct)
        (fun other member => (orders other (List.mem_cons_of_mem _ member)).perm same)
        (same.mem_iff.mpr leftMember) (same.mem_iff.mpr rightMember)
      have ordersFirst := orders greater List.mem_cons_self
      have step := bubbleSort_before_iff distinct ordersFirst first leftMember rightMember apart
      rw [further]
      unfold Lexicographic
      rw [List.reverse_cons, putsFirst_append_singleton, alike_append_singleton, step]
      constructor
      · rintro (puts | ⟨alike, smaller | ⟨kept, before⟩⟩)
        · exact .inl (.inl puts)
        · exact .inl (.inr ⟨alike, smaller⟩)
        · cases back : greater right left with
          | true => exact .inl (.inr ⟨alike, rfl⟩)
          | false => exact .inr ⟨⟨alike, kept, rfl⟩, before⟩
      · rintro ((puts | ⟨alike, smaller⟩) | ⟨⟨alike, kept, _⟩, before⟩)
        · exact .inl puts
        · exact .inr ⟨alike, .inl smaller⟩
        · exact .inr ⟨alike, .inr ⟨kept, before⟩⟩

/-- The order that sorts in turn make is the lexicographic one exactly where
the first and the last comparison to tell two elements apart agree. -/
theorem SortedInTurn.lexicographic_iff (sorts : SortedInTurn comparisons list sorted)
    (distinct : list.Nodup) (orders : ∀ greater ∈ comparisons, Orders greater list) :
    sorted.Pairwise (Lexicographic comparisons list) ↔
      ∀ left ∈ list, ∀ right ∈ list,
        (PutsFirst comparisons left right ↔ PutsFirst comparisons.reverse left right) := by
  have same := sorts.perm
  have ordersReverse : ∀ greater ∈ comparisons.reverse, Orders greater list :=
    fun greater member => orders greater (List.mem_reverse.mp member)
  rw [pairwise_before]
  constructor
  · intro sortedFirst
    have agree : ∀ left ∈ list, ∀ right ∈ list, left ≠ right →
        PutsFirst comparisons.reverse left right → PutsFirst comparisons left right := by
      intro left leftMember right rightMember apart puts
      have before := (sorts.before_iff distinct orders leftMember rightMember apart).mpr (.inl puts)
      rcases sortedFirst left right before with first | ⟨alike, _⟩
      · exact first
      · exact (puts.not_alike (alike_reverse.mpr alike)).elim
    intro left leftMember right rightMember
    by_cases one : left = right
    · cases one
      constructor
      · intro puts
        exact (puts.asymm orders leftMember leftMember puts).elim
      · intro puts
        exact (puts.asymm ordersReverse leftMember leftMember puts).elim
    · refine ⟨fun puts => ?_, agree left leftMember right rightMember one⟩
      have different := fun alike => puts.not_alike (alike_reverse.mp alike)
      refine (putsFirst_or different).resolve_right fun wrong => ?_
      exact puts.asymm orders leftMember rightMember
        (agree right rightMember left leftMember (Ne.symm one) wrong)
  · intro agree left right before
    have members := before_mem before
    have leftMember := same.mem_iff.mp members.1
    have rightMember := same.mem_iff.mp members.2
    have apart := before_ne (same.nodup_iff.mpr distinct) before
    rcases (sorts.before_iff distinct orders leftMember rightMember apart).mp before with
      puts | ⟨alike, first⟩
    · exact .inl ((agree left leftMember right rightMember).mpr puts)
    · exact .inr ⟨alike_reverse.mp alike, first⟩

end InTurn

end Library
