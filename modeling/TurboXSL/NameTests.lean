import TurboXSL.AxisLaws
import TurboXSL.Predicates

namespace TurboXSL

open Library Parse

/-!
# Name tests and `node()`

Every axis function selects with a node test what passes it of what it selects
with `node()`.  Two things go wrong.  Where a list is joined from two walks the
second one counts from one again; and `xpath_get_preceding` and
`xpath_get_following` begin with the last descendant of a sibling where nothing
is selected before its descendants.
-/

/-- The list for a test stands for what passes it of the nodes of another
list, in order, and is numbered from one. -/
def FiltersAxis (type : ExprType) (heap : Heap) (x : NodeId) (kind : Option Kind)
    (all : List (NodeId × Nat)) : Prop :=
  Exists fun sources => axisNodes type heap x kind = some sources ∧
    sources.map Prod.fst = ofKind heap kind (all.map Prod.fst) ∧
    sources.map Prod.snd = List.range' 1 sources.length

/-- None of the siblings on a side has a descendant that passes the test. -/
def NothingBelow (side : ExprType) (heap : Heap) (x : NodeId) (kind : Option Kind) : Prop :=
  ∀ s n, Selects side heap anyNode x s → ¬ Selects .descendant heap kind s n

/-- Where two walks are joined, one of them selects nothing; and what passes
before or behind a node are siblings, or a single node. -/
def OneWalk (type : ExprType) (heap : Heap) (x : NodeId) (kind : Option Kind)
    (all : List (NodeId × Nat)) : Prop :=
  match type with
  | .descendantOrSelf => ∀ n, Selects .self heap kind x x → ¬ Selects .descendant heap kind x n
  | .ancestorOrSelf => ∀ n, Selects .self heap kind x x → ¬ Selects .ancestor heap kind x n
  | .preceding => NothingBelow .precedingSibling heap x kind ∨
      (ofKind heap kind (all.map Prod.fst)).length ≤ 1
  | .following => NothingBelow .followingSibling heap x kind ∨
      (ofKind heap kind (all.map Prod.fst)).length ≤ 1
  | _ => True

/-! ## Walks -/

theorem addAllChildren_ofKind {heap : Heap} (kind : Option Kind) {fuel : Nat} {start : Ptr}
    {nodes : List NodeId} (walked : addAllChildren heap anyNode fuel start = some nodes) :
    addAllChildren heap kind fuel start = some (ofKind heap kind nodes) := by
  induction fuel generalizing start nodes with
  | zero =>
      cases start with
      | none =>
          cases walked
          rfl
      | some node => cases walked
  | succ fuel inductionHypothesis =>
      cases start with
      | none =>
          cases walked
          rfl
      | some node =>
          unfold addAllChildren at walked ⊢
          rcases Option.bind_eq_some_iff.mp walked with ⟨below, inner, walked⟩
          rcases Option.bind_eq_some_iff.mp walked with ⟨behind, outer, done⟩
          cases done
          rw [inductionHypothesis inner, inductionHypothesis outer]
          simp only [Option.bind_eq_bind, Option.bind_some, xpathNodeKind_anyNode, and_true,
            ofKind_append]
          by_cases empty : (heap.get node).type = .empty
          · simp only [empty, ne_eq, not_true_eq_false, false_and, if_false, List.nil_append]
            rfl
          · simp only [empty, ne_eq, not_false_eq_true, true_and, if_true, ofKind_cons]
            rfl

section Beside

variable {heap : Heap} {kind : Option Kind} {nodes : List NodeId} {below : NodeId → List NodeId}

/-- What stands below the siblings is known. -/
def Walked (heap : Heap) (kind : Option Kind) (nodes : List NodeId)
    (below : NodeId → List NodeId) : Prop :=
  ∀ n ∈ nodes, addAllChildren heap kind heap.size (heap.get n).children =
    some (ofKind heap kind (below n))

theorem Walked.tail {n : NodeId} (walked : Walked heap kind (n :: nodes) below) :
    Walked heap kind nodes below := fun m member => walked m (List.mem_cons_of_mem n member)

/-- A sibling that passes is counted on. -/
theorem withDescendants_pass {n : NodeId} (walked : Walked heap kind (n :: nodes) below)
    (passes : xpathNodeKind (heap.get n) kind = true) (selected : Bool) (pos : Nat) :
    withDescendants heap kind selected pos (n :: nodes) =
      (withDescendants heap kind true (pos + 1) nodes).map fun later =>
        (n, pos + 1) :: numbered (ofKind heap kind (below n)) ++ later := by
  rw [withDescendants, walked n List.mem_cons_self]
  simp only [Option.bind_eq_bind, Option.bind_some, passes, if_true]
  cases withDescendants heap kind true (pos + 1) nodes <;> rfl

theorem withDescendants_fail {n : NodeId} (walked : Walked heap kind (n :: nodes) below)
    (fails : ¬ xpathNodeKind (heap.get n) kind = true) (selected : Bool) (pos : Nat) :
    withDescendants heap kind selected pos (n :: nodes) =
      (withDescendants heap kind (selected || !(ofKind heap kind (below n)).isEmpty) pos nodes).map
        fun later => (if selected then numbered (ofKind heap kind (below n))
          else (numbered (ofKind heap kind (below n))).getLast?.toList) ++ later := by
  rw [withDescendants, walked n List.mem_cons_self]
  simp only [Option.bind_eq_bind, Option.bind_some, fails]
  cases withDescendants heap kind (selected || !(ofKind heap kind (below n)).isEmpty) pos nodes <;> rfl

/-- Siblings alone are counted through. -/
theorem withDescendants_siblings (walked : Walked heap kind nodes below)
    (nothing : ∀ n ∈ nodes, ofKind heap kind (below n) = []) (selected : Bool) (pos : Nat) :
    withDescendants heap kind selected pos nodes =
      some ((ofKind heap kind nodes).zipIdx (pos + 1)) := by
  induction nodes generalizing selected pos with
  | nil => rfl
  | cons n rest inductionHypothesis =>
      have here := nothing n List.mem_cons_self
      have later := inductionHypothesis walked.tail fun m member =>
        nothing m (List.mem_cons_of_mem n member)
      rw [ofKind_cons]
      by_cases passes : xpathNodeKind (heap.get n) kind = true
      · rw [withDescendants_pass walked passes, here, later, if_pos passes]
        rfl
      · rw [withDescendants_fail walked passes, here, later, if_neg passes]
        cases selected <;> rfl

theorem ofKind_siblings (nothing : ∀ n ∈ nodes, ofKind heap kind (below n) = []) :
    ofKind heap kind (nodes.flatMap fun n => n :: below n) = ofKind heap kind nodes := by
  induction nodes with
  | nil => rfl
  | cons n rest inductionHypothesis =>
      have later := inductionHypothesis fun m member => nothing m (List.mem_cons_of_mem n member)
      rw [List.flatMap_cons, ofKind_append, ofKind_cons, ofKind_cons, nothing n List.mem_cons_self,
        later]
      split <;> rfl

/-- So is a single node, wherever it is. -/
theorem withDescendants_single (walked : Walked heap kind nodes below)
    (single : (ofKind heap kind (nodes.flatMap fun n => n :: below n)).length ≤ 1) :
    withDescendants heap kind false 0 nodes =
      some (numbered (ofKind heap kind (nodes.flatMap fun n => n :: below n))) := by
  induction nodes with
  | nil => rfl
  | cons n rest inductionHypothesis =>
      rw [List.flatMap_cons, ofKind_append, ofKind_cons] at single ⊢
      -- behind a node that is selected nothing is
      have nothing : ofKind heap kind (rest.flatMap fun n => n :: below n) = [] →
          (∀ m ∈ rest, ofKind heap kind (below m) = []) ∧ ofKind heap kind rest = [] := by
        intro empty
        rw [List.filter_eq_nil_iff] at empty
        constructor
        · intro m member
          rw [List.filter_eq_nil_iff]
          intro d at_
          exact empty d (List.mem_flatMap.mpr ⟨m, member, List.mem_cons_of_mem m at_⟩)
        · rw [List.filter_eq_nil_iff]
          intro m member
          exact empty m (List.mem_flatMap.mpr ⟨m, member, List.mem_cons_self⟩)
      by_cases passes : xpathNodeKind (heap.get n) kind = true
      · rw [if_pos passes, List.length_append, List.length_cons] at single
        have own : ofKind heap kind (below n) = [] := List.eq_nil_of_length_eq_zero (by omega)
        have others := List.eq_nil_of_length_eq_zero (by omega :
          (ofKind heap kind (rest.flatMap fun n => n :: below n)).length = 0)
        have later := nothing others
        rw [withDescendants_pass walked passes, withDescendants_siblings walked.tail later.1,
          later.2, if_pos passes, own, others]
        rfl
      · rw [if_neg passes, List.length_append] at single
        rw [withDescendants_fail walked passes, if_neg passes]
        cases own : ofKind heap kind (below n) with
        | nil =>
            rw [own, List.length_nil, Nat.zero_add] at single
            have later := inductionHypothesis walked.tail single
            simp only [List.isEmpty_nil, Bool.not_true, Bool.or_false]
            rw [later]
            rfl
        | cons d more =>
            rw [own, List.length_cons] at single
            have alone : more = [] := List.eq_nil_of_length_eq_zero (by omega)
            have others := List.eq_nil_of_length_eq_zero (by omega :
              (ofKind heap kind (rest.flatMap fun n => n :: below n)).length = 0)
            have later := nothing others
            rw [withDescendants_siblings walked.tail later.1, later.2, alone, others]
            rfl

/-- Behind something that is selected, the numbers go on only where nothing
stands below the siblings. -/
theorem nothing_below_of_counted {pos : Nat} (behind : 0 < pos)
    (walked : Walked heap kind nodes below) {sources : List (NodeId × Nat)}
    (found : withDescendants heap kind true pos nodes = some sources)
    (counted : sources.map Prod.snd = List.range' (pos + 1) sources.length) :
    ∀ n ∈ nodes, ofKind heap kind (below n) = [] := by
  induction nodes generalizing pos sources with
  | nil => exact nofun
  | cons n rest inductionHypothesis =>
      by_cases passes : xpathNodeKind (heap.get n) kind = true
      · rw [withDescendants_pass walked passes] at found
        rcases Option.map_eq_some_iff.mp found with ⟨later, walk, rfl⟩
        cases own : ofKind heap kind (below n) with
        | nil =>
            rw [own] at counted
            have next : later.map Prod.snd = List.range' (pos + 1 + 1) later.length :=
              (List.cons.inj counted).2
            exact List.forall_mem_cons.mpr ⟨own, inductionHypothesis (Nat.succ_pos pos) walked.tail walk
              next⟩
        | cons d more =>
            rw [own] at counted
            have first : (1 : Nat) = pos + 1 + 1 := (List.cons.inj (List.cons.inj counted).2).1
            omega
      · rw [withDescendants_fail walked passes] at found
        rcases Option.map_eq_some_iff.mp found with ⟨later, walk, rfl⟩
        cases own : ofKind heap kind (below n) with
        | nil =>
            rw [own] at counted walk
            exact List.forall_mem_cons.mpr ⟨own, inductionHypothesis behind walked.tail walk counted⟩
        | cons d more =>
            rw [own] at counted
            have first : (1 : Nat) = pos + 1 := (List.cons.inj counted).1
            omega

/-- A list that begins anew begins with one. -/
theorem withDescendants_begins (walked : Walked heap kind nodes below) {selected : Bool}
    (before : selected = true) {first : NodeId × Nat} {later : List (NodeId × Nat)}
    (found : withDescendants heap kind selected 0 nodes = some (first :: later)) : first.2 = 1 := by
  induction nodes generalizing selected with
  | nil => cases found
  | cons n rest inductionHypothesis =>
      by_cases passes : xpathNodeKind (heap.get n) kind = true
      · rw [withDescendants_pass walked passes] at found
        rcases Option.map_eq_some_iff.mp found with ⟨more, _, same⟩
        rw [← (List.cons.inj same).1]
      · rw [withDescendants_fail walked passes, before] at found
        rcases Option.map_eq_some_iff.mp found with ⟨more, walk, same⟩
        cases own : ofKind heap kind (below n) with
        | nil =>
            rw [own] at same walk
            have shape : more = first :: later := same
            rw [shape] at walk
            exact inductionHypothesis walked.tail rfl walk
        | cons d others =>
            rw [own] at same
            rw [← (List.cons.inj same).1]

/-- What is numbered from one, and lacks nothing, are siblings or a single
node. -/
theorem siblings_or_single (walked : Walked heap kind nodes below)
    {sources : List (NodeId × Nat)} (found : withDescendants heap kind false 0 nodes = some sources)
    (whole : sources.map Prod.fst = ofKind heap kind (nodes.flatMap fun n => n :: below n))
    (counted : sources.map Prod.snd = List.range' 1 sources.length) :
    (∀ n ∈ nodes, ofKind heap kind (below n) = []) ∨
      (ofKind heap kind (nodes.flatMap fun n => n :: below n)).length ≤ 1 := by
  induction nodes generalizing sources with
  | nil => exact .inl nofun
  | cons n rest inductionHypothesis =>
      rw [List.flatMap_cons, ofKind_append, ofKind_cons] at whole ⊢
      by_cases passes : xpathNodeKind (heap.get n) kind = true
      · rw [withDescendants_pass walked passes] at found
        rcases Option.map_eq_some_iff.mp found with ⟨later, walk, rfl⟩
        cases own : ofKind heap kind (below n) with
        | nil =>
            rw [own] at counted
            have next : later.map Prod.snd = List.range' (1 + 1) later.length :=
              (List.cons.inj counted).2
            exact .inl (List.forall_mem_cons.mpr ⟨own,
              nothing_below_of_counted Nat.one_pos walked.tail walk next⟩)
        | cons d more =>
            rw [own] at counted
            have first : (1 : Nat) = 1 + 1 := (List.cons.inj (List.cons.inj counted).2).1
            omega
      · rw [withDescendants_fail walked passes] at found
        rcases Option.map_eq_some_iff.mp found with ⟨later, walk, rfl⟩
        rw [if_neg passes] at whole ⊢
        cases own : ofKind heap kind (below n) with
        | nil =>
            rw [own] at counted walk whole
            rcases inductionHypothesis walked.tail walk whole counted with nothing | single
            · exact .inl (List.forall_mem_cons.mpr ⟨own, nothing⟩)
            · exact .inr single
        | cons d more =>
            -- the list begins with the last descendant, which is number one only if it is alone
            rw [own] at counted walk whole
            have numbers : ((numbered (d :: more)).getLast?).map Prod.snd = some (more.length + 1) := by
              rw [← List.getLast?_map, numbered_snd, List.getLast?_range', List.length_cons,
                if_neg (Nat.succ_ne_zero _)]
              apply congrArg some
              omega
            rcases Option.map_eq_some_iff.mp numbers with ⟨last, ends, number⟩
            rw [ends] at counted whole
            have first : last.2 = 1 := (List.cons.inj counted).1
            have next : later.map Prod.snd = List.range' (1 + 1) later.length :=
              (List.cons.inj counted).2
            have rest_ : later = [] := by
              cases later with
              | nil => rfl
              | cons second others =>
                  have one := withDescendants_begins walked.tail rfl walk
                  have two : second.2 = 1 + 1 := (List.cons.inj next).1
                  omega
            rw [rest_] at whole
            exact .inr (Nat.le_of_eq (congrArg List.length whole).symm)

end Beside

/-- Two lists counted from one are counted through if one of them is empty. -/
theorem counted_append_iff (first second : List NodeId) :
    (numbered first ++ numbered second).map Prod.snd =
      List.range' 1 (numbered first ++ numbered second).length ↔ first = [] ∨ second = [] := by
  have lengths : ∀ nodes : List NodeId, (numbered nodes).length = nodes.length := fun nodes =>
    List.length_zipIdx
  have whole := @List.range'_append_1 1 first.length second.length
  rw [List.map_append, numbered_snd, numbered_snd, List.length_append, lengths, lengths, ← whole,
    List.append_cancel_left_eq]
  cases first with
  | nil => exact iff_of_true rfl (.inl rfl)
  | cons a first =>
      cases second with
      | nil => exact iff_of_true rfl (.inr rfl)
      | cons b second =>
          refine iff_of_false (fun same => ?_) (fun empty => empty.elim nofun nofun)
          have begins : (1 : Nat) = 1 + (a :: first).length := (List.cons.inj same).1
          rw [List.length_cons] at begins
          omega

/-- What is below the siblings, from a walk that returns. -/
theorem exists_walked {heap : Heap} {nodes : List NodeId} {selected : Bool} {pos : Nat}
    {all : List (NodeId × Nat)}
    (found : withDescendants heap anyNode selected pos nodes = some all) :
    Exists fun below => ∀ kind, Walked heap kind nodes below := by
  have each : ∀ n ∈ nodes, Exists fun below =>
      addAllChildren heap anyNode heap.size (heap.get n).children = some below := by
    induction nodes generalizing selected pos all with
    | nil => exact nofun
    | cons n rest inductionHypothesis =>
        unfold withDescendants at found
        rcases Option.bind_eq_some_iff.mp found with ⟨below, walked, found⟩
        simp only [xpathNodeKind_anyNode, if_true] at found
        rcases Option.bind_eq_some_iff.mp found with ⟨later, walk, _⟩
        exact List.forall_mem_cons.mpr ⟨⟨below, walked⟩, inductionHypothesis walk⟩
  refine ⟨fun n => (addAllChildren heap anyNode heap.size (heap.get n).children).getD [],
    fun kind n member => ?_⟩
  rcases each n member with ⟨below, walked⟩
  rw [addAllChildren_ofKind kind walked]
  simp only [walked, Option.getD_some]

/-- What a test selects of the siblings and what is below them. -/
theorem filters_beside_iff {heap : Heap} {nodes : List NodeId} {all : List (NodeId × Nat)}
    (found : withDescendants heap anyNode false 0 nodes = some all) (kind : Option Kind) :
    (Exists fun sources => withDescendants heap kind false 0 nodes = some sources ∧
      sources.map Prod.fst = ofKind heap kind (all.map Prod.fst) ∧
      sources.map Prod.snd = List.range' 1 sources.length) ↔
    (∀ s ∈ nodes, ∀ n, ¬ Selects .descendant heap kind s n) ∨
      (ofKind heap kind (all.map Prod.fst)).length ≤ 1 := by
  rcases exists_walked found with ⟨below, walked⟩
  have listed : all.map Prod.fst = nodes.flatMap fun n => n :: below n := by
    rcases Linked.withDescendants_eq anyNode (walked anyNode)
      (.inr fun _ _ => xpathNodeKind_anyNode _) 0 with ⟨sources, same, listed⟩
    rw [found] at same
    cases same
    rw [listed, ofKind_anyNode]
  have none_ : (∀ s ∈ nodes, ∀ n, ¬ Selects .descendant heap kind s n) ↔
      ∀ s ∈ nodes, ofKind heap kind (below s) = [] := by
    apply forall₂_congr
    intro s member
    have known : axisNodes .descendant heap s kind = some (numbered (ofKind heap kind (below s))) := by
      unfold axisNodes
      rw [walked kind s member]
      rfl
    simp only [selects_iff known, numbered_fst]
    exact List.eq_nil_iff_forall_not_mem.symm
  rw [listed, none_]
  constructor
  · rintro ⟨sources, done, whole, counted⟩
    exact siblings_or_single (walked kind) done whole counted
  · rintro (nothing | single)
    · refine ⟨_, withDescendants_siblings (walked kind) nothing false 0, ?_, ?_⟩
      · rw [List.zipIdx_map_fst, ofKind_siblings nothing]
      · rw [List.zipIdx_map_snd, List.length_zipIdx]
    · refine ⟨_, withDescendants_single (walked kind) single, numbered_fst _, ?_⟩
      rw [numbered_snd, numbered, List.length_zipIdx]

theorem getSelf_eq (heap : Heap) (x : NodeId) (kind : Option Kind) :
    getSelf heap x kind = ofKind heap kind (getSelf heap x anyNode) := by
  unfold getSelf
  rw [xpathNodeKind_anyNode, if_pos rfl, ofKind_cons]
  rfl

/-- A node in front of a list. -/
theorem filters_self_iff {heap : Heap} {x : NodeId} {nodes : List NodeId} (kind : Option Kind) :
    ((numbered (getSelf heap x kind) ++ numbered (ofKind heap kind nodes)).map Prod.snd =
      List.range' 1 (numbered (getSelf heap x kind) ++ numbered (ofKind heap kind nodes)).length) ↔
    ∀ n, Selects .self heap kind x x → n ∉ ofKind heap kind nodes := by
  have here : Selects .self heap kind x x ↔ getSelf heap x kind ≠ [] := by
    rw [selects_iff rfl, numbered_fst]
    unfold getSelf
    split
    · exact iff_of_true (List.mem_singleton_self x) (List.cons_ne_nil x [])
    · exact iff_of_false nofun fun there => there rfl
  rw [counted_append_iff, here, List.eq_nil_iff_forall_not_mem (l := ofKind heap kind nodes)]
  constructor
  · rintro (nothing | nothing) n there
    · exact absurd nothing there
    · exact nothing n
  · intro one
    by_cases nothing : getSelf heap x kind = []
    · exact .inl nothing
    · exact .inr fun n => one n nothing

/-- A list from a single walk. -/
theorem filters_walk {type : ExprType} {heap : Heap} {x : NodeId} (nodes : List NodeId)
    (walks : ∀ kind, axisNodes type heap x kind = some (numbered (ofKind heap kind nodes)))
    {all : List (NodeId × Nat)} (found : axisNodes type heap x anyNode = some all)
    (kind : Option Kind) : FiltersAxis type heap x kind all := by
  rw [walks, ofKind_anyNode] at found
  cases found
  refine ⟨_, walks kind, ?_, ?_⟩
  · rw [numbered_fst, numbered_fst]
  · rw [numbered_snd, numbered, List.length_zipIdx]

/-- A list from a walk behind the node itself. -/
theorem filters_self_walk_iff {type : ExprType} {heap : Heap} {x : NodeId} (nodes : List NodeId)
    (walks : ∀ kind, axisNodes type heap x kind =
      some (numbered (getSelf heap x kind) ++ numbered (ofKind heap kind nodes)))
    {all : List (NodeId × Nat)} (found : axisNodes type heap x anyNode = some all)
    (kind : Option Kind) :
    FiltersAxis type heap x kind all ↔
      ∀ n, Selects .self heap kind x x → n ∉ ofKind heap kind nodes := by
  rw [walks, ofKind_anyNode] at found
  cases found
  have whole : (numbered (getSelf heap x kind) ++ numbered (ofKind heap kind nodes)).map Prod.fst =
      ofKind heap kind ((numbered (getSelf heap x anyNode) ++ numbered nodes).map Prod.fst) := by
    rw [List.map_append, List.map_append, numbered_fst, numbered_fst, numbered_fst, numbered_fst,
      ofKind_append, getSelf_eq heap x kind]
  rw [← filters_self_iff kind]
  constructor
  · rintro ⟨sources, listed, _, counted⟩
    rw [walks] at listed
    cases listed
    exact counted
  · exact fun counted => ⟨_, walks kind, whole, counted⟩

/-- A list from the siblings on a side and what is below them. -/
theorem filters_side_iff {type side : ExprType} {heap : Heap} {x : NodeId} {nodes : List NodeId}
    (walks : ∀ kind, axisNodes type heap x kind = withDescendants heap kind false 0 nodes)
    (siblings : axisNodes side heap x anyNode = some (numbered nodes))
    {all : List (NodeId × Nat)} (found : axisNodes type heap x anyNode = some all)
    (kind : Option Kind) :
    FiltersAxis type heap x kind all ↔ NothingBelow side heap x kind ∨
      (ofKind heap kind (all.map Prod.fst)).length ≤ 1 := by
  have nothing : NothingBelow side heap x kind ↔
      ∀ s ∈ nodes, ∀ n, ¬ Selects .descendant heap kind s n := by
    unfold NothingBelow
    simp only [selects_iff siblings, numbered_fst]
    exact forall_congr' fun s => forall_comm
  rw [walks] at found
  rw [nothing, ← filters_beside_iff found kind]
  unfold FiltersAxis
  rw [walks]

/-- A name test selects on every axis what `node()` selects of that name, and
numbers it from one, exactly if only one walk selects. -/
theorem name_tests_filter_iff (type : ExprType) (heap : Heap) (x : NodeId) (name : Bytes) :
    (∀ inside, Linked heap inside → inside x →
      Exists fun all => axisNodes type heap x anyNode = some all) ∧
    ∀ all, axisNodes type heap x anyNode = some all →
      (FiltersAxis type heap x (some (.named name)) all ↔
        OneWalk type heap x (some (.named name)) all) := by
  refine ⟨fun inside linked member => ?_, fun all found => ?_⟩
  · rcases linked.axisNodes_total member type anyNode with ⟨all, found, _⟩
    exact ⟨all, found⟩
  generalize (some (.named name) : Option Kind) = kind
  have known := found
  unfold axisNodes at known
  cases type
  case self =>
    refine iff_of_true (filters_walk (getSelf heap x anyNode) (fun kind => ?_) found kind) trivial
    rw [← getSelf_eq]
    rfl
  case parent =>
    cases up : (heap.get x).parent with
    | none =>
        refine iff_of_true (filters_walk [] (fun kind => ?_) found kind) trivial
        unfold axisNodes
        simp only [up]
        rfl
    | some parent =>
        by_cases root : xmlsEquals (heap.get parent).name (some xslSRoot)
        · refine iff_of_true (filters_walk [] (fun kind => ?_) found kind) trivial
          unfold axisNodes
          simp only [up, root, if_true]
          rfl
        · refine iff_of_true (filters_walk (getSelf heap parent anyNode) (fun kind => ?_) found kind)
            trivial
          rw [← getSelf_eq]
          unfold axisNodes
          simp only [up, root, if_false]
  case descendant =>
    rcases Option.bind_eq_some_iff.mp known with ⟨nodes, listed, _⟩
    refine iff_of_true (filters_walk nodes (fun kind => ?_) found kind) trivial
    unfold axisNodes
    simp only [addAllChildren_ofKind kind listed]
    rfl
  case descendantOrSelf =>
    rcases Option.bind_eq_some_iff.mp known with ⟨nodes, listed, _⟩
    have lower : axisNodes .descendant heap x kind = some (numbered (ofKind heap kind nodes)) := by
      unfold axisNodes
      rw [addAllChildren_ofKind kind listed]
      rfl
    rw [filters_self_walk_iff nodes (fun kind => ?_) found kind]
    · unfold OneWalk
      simp only [selects_iff lower, numbered_fst]
    · unfold axisNodes
      simp only [addAllChildren_ofKind kind listed]
      rfl
  case ancestorOrSelf =>
    rcases Option.bind_eq_some_iff.mp known with ⟨nodes, listed, _⟩
    have upper : axisNodes .ancestor heap x kind = some (numbered (ofKind heap kind nodes)) := by
      unfold axisNodes
      rw [listed]
      rfl
    rw [filters_self_walk_iff nodes (fun kind => ?_) found kind]
    · unfold OneWalk
      simp only [selects_iff upper, numbered_fst]
    · unfold axisNodes
      simp only [listed]
      rfl
  case preceding =>
    rcases Option.bind_eq_some_iff.mp known with ⟨nodes, listed, _⟩
    refine @filters_side_iff .preceding .precedingSibling heap x nodes (fun kind => ?_) ?_ _ found kind
    · unfold axisNodes
      simp only [listed]
      rfl
    · unfold axisNodes
      simp only [listed]
      exact congrArg some (congrArg numbered (ofKind_anyNode heap nodes))
  case following =>
    rcases Option.bind_eq_some_iff.mp known with ⟨nodes, listed, _⟩
    refine @filters_side_iff .following .followingSibling heap x nodes (fun kind => ?_) ?_ _ found kind
    · unfold axisNodes
      simp only [listed]
      rfl
    · unfold axisNodes
      simp only [listed]
      exact congrArg some (congrArg numbered (ofKind_anyNode heap nodes))
  all_goals
    rcases Option.bind_eq_some_iff.mp known with ⟨nodes, listed, _⟩
    refine iff_of_true (filters_walk nodes (fun kind => ?_) found kind) trivial
    unfold axisNodes
    simp only [listed]
    rfl

def nephews : Bytes := lit "<r><s><a/><a/></s><x/></r>"

theorem nephews_linked : Exists fun inside : NodeId → Prop =>
    Linked (memoryAfter 60 nephews) inside ∧ inside 5 := by
  have parsed : DoParse .empty nephews (some 0) (memoryAfter 60 nephews) := ⟨60, rfl⟩
  rcases parsed.linked with ⟨linked, member⟩
  have one := (linked.child_of_axis member [(1, 1)] (by decide) 1).mpr (by decide)
  have inner := linked.forest.inside_child member one
  have row := linked.child_of_axis inner [(2, 1), (5, 2)] (by decide)
  exact ⟨_, linked, linked.forest.inside_child inner ((row 5).mpr (by decide))⟩

theorem name_tests_filter_iff_nephews :
    (Exists fun all => axisNodes .preceding (memoryAfter 60 nephews) 5 anyNode = some all) ∧
      FiltersAxis .preceding (memoryAfter 60 nephews) 5 (some (.named (lit "s")))
        [(2, 1), (3, 1), (4, 2)] := by
  rcases nephews_linked with ⟨inside, linked, member⟩
  have filters := name_tests_filter_iff .preceding (memoryAfter 60 nephews) 5 (lit "s")
  exact ⟨filters.1 inside linked member, (filters.2 _ (by decide)).mpr (.inr (by decide))⟩

/-- Of the two nephews in front of `x` the first is lost, and the other one
has position 2. -/
theorem nephew_is_lost : Exists fun after =>
    DoParse .empty nephews (some 0) after ∧
      axisNodes .preceding after 5 anyNode = some [(2, 1), (3, 1), (4, 2)] ∧
      axisNodes .preceding after 5 (some (.named (lit "a"))) = some [(4, 2)] ∧
      ¬ FiltersAxis .preceding after 5 (some (.named (lit "a"))) [(2, 1), (3, 1), (4, 2)] := by
  have listed : axisNodes .preceding (memoryAfter 60 nephews) 5 (some (.named (lit "a"))) =
      some [(4, 2)] := by decide
  refine ⟨memoryAfter 60 nephews, ⟨60, rfl⟩, by decide, listed, ?_⟩
  rintro ⟨sources, same, _, counted⟩
  rw [listed] at same
  cases same
  exact absurd counted (by decide)

end TurboXSL
