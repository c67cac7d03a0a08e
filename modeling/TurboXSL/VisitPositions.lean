import TurboXSL.Predicates
import TurboXSL.Unions
import TurboXSL.VisitLaws

namespace TurboXSL

open Library Parse

/-!
# Positions in a visit

The body of `xsl:for-each`, and the template that `xsl:apply-templates` finds,
read `position()` from the node that is visited and `last()` from the last node
of its list.  A sort numbers the nodes through; without one they carry the
numbers that whatever made the list has left on them.
-/

/-! ## The loop over the nodes -/

/-- The loop over the nodes: every one with the memory that its round begins
in, for any rounds. -/
inductive Visits (round : NodeId → Heap → Heap → Prop) :
    Heap → Ptr → List (NodeId × Heap) → Heap → Prop where
  | done (heap : Heap) : Visits round heap none [] heap
  | next {heap middle after : Heap} {node : NodeId} {rounds : List (NodeId × Heap)}
      (run : round node heap middle)
      (later : Visits round middle (middle.get node).next rounds after) :
      Visits round heap (some node) ((node, heap) :: rounds) after

/-- Nodes keep their place in a list. -/
structure KeepsPlaces (nodes : List NodeId) (before after : Heap) : Prop where
  grows : before.size ≤ after.size
  next : ∀ n ∈ nodes, (after.get n).next = (before.get n).next
  position : ∀ n ∈ nodes, (after.get n).position = (before.get n).position

theorem KeepsPlaces.refl (nodes : List NodeId) (heap : Heap) : KeepsPlaces nodes heap heap :=
  ⟨Nat.le_refl _, fun _ _ => rfl, fun _ _ => rfl⟩

theorem KeepsPlaces.trans {nodes : List NodeId} {before middle after : Heap}
    (first : KeepsPlaces nodes before middle) (second : KeepsPlaces nodes middle after) :
    KeepsPlaces nodes before after where
  grows := Nat.le_trans first.grows second.grows
  next := fun n member => (second.next n member).trans (first.next n member)
  position := fun n member => (second.position n member).trans (first.position n member)

/-- What `position()` and `last()` give in a memory. -/
structure SeesPlace (heap : Heap) (node : NodeId) (index count : Nat) : Prop where
  position : (heap.get node).position = index
  last : lastPosition heap node = some count

/-- Every round sees its index and the count of the rounds. -/
def CountedRounds (rounds : List (NodeId × Heap)) : Prop :=
  ∀ i (small : i < rounds.length), SeesPlace rounds[i].2 rounds[i].1 (i + 1) rounds.length

section Loop

variable {round : NodeId → Heap → Heap → Prop} {nodes : List NodeId}
  (keeps : ∀ n ∈ nodes, ∀ before after, round n before after → KeepsPlaces nodes before after)

include keeps

/-- The loop goes through the list as it was when it began. -/
theorem Visits.rounds_eq {heap after : Heap} {start : Ptr} {rest : List NodeId}
    {rounds : List (NodeId × Heap)} (visits : Visits round heap start rounds after)
    (chain : Siblings heap start rest) (among : rest ⊆ nodes) :
    rounds.map Prod.fst = rest ∧ ∀ r ∈ rounds, KeepsPlaces nodes heap r.2 := by
  induction visits generalizing rest with
  | done heap =>
      cases chain
      exact ⟨rfl, nofun⟩
  | @next heap middle after node rounds run later inductionHypothesis =>
      cases chain with
      | cons _ behind tail =>
          have visited := among List.mem_cons_self
          have kept := keeps node visited heap middle run
          have onward : behind ⊆ nodes := fun n at_ => among (List.mem_cons_of_mem _ at_)
          have still : Siblings middle (middle.get node).next behind := by
            rw [kept.next node visited]
            exact tail.congr fun n at_ => kept.next n (onward at_)
          rcases inductionHypothesis still onward with ⟨same, places⟩
          refine ⟨congrArg (node :: ·) same, ?_⟩
          intro r at_
          rcases List.mem_cons.mp at_ with rfl | at_
          · exact .refl nodes heap
          · exact kept.trans (places r at_)

/-- The rounds are counted exactly where the list is. -/
theorem Visits.counted_iff {heap after : Heap} {start : Ptr} {rounds : List (NodeId × Heap)}
    (visits : Visits round heap start rounds after) (chain : Siblings heap start nodes)
    (short : nodes.length ≤ heap.size) :
    rounds.map Prod.fst = nodes ∧ (CountedRounds rounds ↔ Numbered heap nodes) := by
  rcases visits.rounds_eq keeps chain (fun _ at_ => at_) with ⟨same, places⟩
  have length : rounds.length = nodes.length := by rw [← same, List.length_map]
  have here : ∀ i (small : i < rounds.length), rounds[i].1 = nodes[i] ∧
      KeepsPlaces nodes heap rounds[i].2 := by
    intro i small
    refine ⟨?_, places _ (List.getElem_mem small)⟩
    have mapped := List.getElem_of_eq same (i := i) (by simpa using small)
    rwa [List.getElem_map] at mapped
  have sees : ∀ i (small : i < rounds.length),
      (rounds[i].2.get rounds[i].1).position = (heap.get nodes[i]).position ∧
      lastPosition rounds[i].2 rounds[i].1 =
        nodes.getLast?.map fun last => (heap.get last).position := by
    intro i small
    rcases here i small with ⟨node, kept⟩
    have member : nodes[i] ∈ nodes := List.getElem_mem (length ▸ small)
    rw [node]
    refine ⟨kept.position _ member, ?_⟩
    rw [lastPosition_eq (chain.congr kept.next) (Nat.le_trans short kept.grows) member]
    cases ends : nodes.getLast? with
    | none => rfl
    | some last =>
        exact congrArg some (kept.position last (List.mem_of_getLast? ends))
  refine ⟨same, ?_⟩
  constructor
  · intro counted i small
    have small' : i < rounds.length := length ▸ small
    rw [← (sees i small').1]
    exact (counted i small').position
  · intro numbered i small
    have inNodes : i < nodes.length := length ▸ small
    refine ⟨(sees i small).1.trans (numbered i inNodes), (sees i small).2.trans ?_⟩
    have some_ : nodes ≠ [] := List.ne_nil_of_length_pos (Nat.zero_lt_of_lt inNodes)
    rw [List.getLast?_eq_some_getLast some_, Option.map_some, List.getLast_eq_getElem,
      numbered (nodes.length - 1) (by omega), length]
    apply congrArg some
    omega

end Loop

/-! ## Sorted lists -/

theorem numbered_iff {heap : Heap} {nodes : List NodeId} :
    Numbered heap nodes ↔
      nodes.map (fun n => (heap.get n).position) = List.range' 1 nodes.length := by
  constructor
  · intro numbered
    apply List.ext_getElem
    · rw [List.length_map, List.length_range']
    · intro i small _
      rw [List.length_map] at small
      rw [List.getElem_map, List.getElem_range', numbered i small]
      omega
  · intro counted i small
    have here := List.getElem_of_eq counted (i := i) (by simpa using small)
    rw [List.getElem_map, List.getElem_range'] at here
    rw [here]
    omega

/-- A list that has been linked anew is numbered. -/
theorem relink_numbered (heap : Heap) {nodes : List NodeId} (distinct : nodes.Nodup) :
    Numbered (relink heap none 0 nodes) nodes := by
  intro i small
  have split : nodes = nodes.take i ++ nodes[i] :: nodes.drop (i + 1) := by
    rw [List.getElem_cons_drop, List.take_append_drop]
  have here := relink_get heap none 0 (nodes.take i) (split ▸ distinct)
  rw [← split] at here
  rw [here]
  change 0 + (nodes.take i).length + 1 = i + 1
  rw [List.length_take, Nat.min_eq_left (Nat.le_of_lt small), Nat.zero_add]

/-- A sort numbers what it sorts; else the numbers are those of the selection. -/
theorem sortSelection_numbered_iff {Num : Type} [Double Num] {env : Env Num} {depth : Nat}
    {sorts : List SortChild} {heap after : Heap} {selection sorted : Ptr}
    {selected visited : List NodeId} (old : Old env.locals heap)
    (listed : siblings heap selection = some selected)
    (done : sortSelection env depth sorts heap selection = some (after, sorted))
    (relisted : siblings after sorted = some visited) :
    Numbered after visited ↔
      sorts ≠ [] ∧ 2 ≤ selected.length ∨ Numbered heap selected := by
  rcases sortSelection_rearranged old listed done relisted with ⟨_, same, few, many⟩
  by_cases idle : sorts = [] ∨ selected.length < 2
  · rcases few idle with ⟨rfl, rfl⟩
    constructor
    · exact .inr
    · rintro (⟨some_, several⟩ | numbered)
      · exact idle.elim (fun none_ => absurd none_ some_) fun less =>
          absurd less (Nat.not_lt.mpr several)
      · exact numbered
  · rw [not_or, Nat.not_lt] at idle
    rcases many idle.1 idle.2 with ⟨middle, memory⟩
    have distinct : visited.Nodup := (follow_eq_some_iff.mp relisted).1.nodup
    refine iff_of_true ?_ (.inl idle)
    rw [memory]
    exact relink_numbered middle distinct

/-! ## The children of a node -/

/-- The numbers of `renumber_children` count every node where there is no
character data. -/
theorem siblingPositions_eq_iff {heap : Heap} {nodes : List NodeId} {pos : Nat} (some_ : 0 < pos) :
    siblingPositions heap pos nodes = List.range' pos nodes.length ↔
      ∀ n ∈ nodes, (heap.get n).type ≠ .text := by
  induction nodes generalizing pos with
  | nil => exact iff_of_true rfl nofun
  | cons node rest inductionHypothesis =>
      unfold siblingPositions
      rw [List.length_cons, List.range'_succ, List.forall_mem_cons]
      by_cases text : (heap.get node).type = .text
      · rw [if_pos text]
        apply iff_of_false
        · intro same
          exact absurd (List.cons.inj same).1 (Nat.ne_of_lt some_)
        · exact fun both => both.1 text
      · rw [if_neg text, List.cons_inj_right, inductionHypothesis (Nat.succ_pos pos)]
        exact ⟨fun later => ⟨text, later⟩, And.right⟩

/-! ## What the end of a path leaves -/

/-- The positions of the nodes of a list. -/
abbrev positionsIn (heap : Heap) (nodes : List NodeId) : List Nat :=
  nodes.map fun n => (heap.get n).position

/-- The positions that the operands of a union get: each list is counted on
but for its last node, which keeps its own. -/
def joinedPositions : Nat → List (List Nat) → List Nat
  | _, [] => []
  | pos, own :: rest =>
      List.range' (pos + 1) own.dropLast.length ++ own.getLast?.toList ++
        joinedPositions (pos + own.dropLast.length) rest

theorem joinedPositions_cons (pos : Nat) (own : List Nat) (rest : List (List Nat)) :
    joinedPositions pos (own :: rest) = List.range' (pos + 1) own.dropLast.length ++
      own.getLast?.toList ++ joinedPositions (pos + own.dropLast.length) rest := rfl

/-- The positions that the evaluation of a path leaves: an axis counts anew for
every node that it is taken from, the only attribute of a step from the current
node has none, and all else is counted through. -/
inductive LeavesPositions {Num : Type} [Double Num] (env : Env Num) (depth : Nat)
    (current : NodeId) : Expr → Heap → List Nat → Prop where
  | axis {head : ExprNode} {heap : Heap} {sources : List (NodeId × Nat)}
      (isAxis : head.type.isAxis = true)
      (found : axisNodes head.type heap current head.kind = some sources) :
      LeavesPositions env depth current (.leaf head) heap (sources.map Prod.snd)
  | axisOver {head : ExprNode} {before : Expr} {heap middle : Heap} {value : RValue Num}
      {nodes : List NodeId} {lists : List (List (NodeId × Nat))}
      (isAxis : head.type.isAxis = true) (some_ : before ≠ .null)
      (evaluated : xpathExecuteScalar env depth before current heap = some (value, middle))
      (listed : members value middle = some nodes)
      (found : (nodes.mapM fun n => axisNodes head.type middle n head.kind) = some lists) :
      LeavesPositions env depth current (.node head before .null) heap (lists.flatten.map Prod.snd)
  | attribute_ {head : ExprNode} {heap : Heap} {own : List Nat} (attr : head.type = .attr)
      (one : own = [] ∨ own = [0]) : LeavesPositions env depth current (.leaf head) heap own
  | through {head : ExprNode} {before : Expr} {heap : Heap} (count : Nat)
      (counts : head.type = .filter ∨ head.type = .attrAll ∨ head.type = .call ∨
        head.type = .attr ∧ before ≠ .null) :
      LeavesPositions env depth current (.node head before .null) heap (List.range' 1 count)

section Producers

variable {Num : Type} [Double Num] {env : Env Num} {depth : Nat} {current : NodeId}

/-- The positions of a selection of copies. -/
theorem Appended.numbers {locals : Ptr} {before after : Heap} {copies nodes : List NodeId}
    (made : Appended locals before after none copies (numbered nodes)) :
    positionsIn after copies = List.range' 1 nodes.length := by
  rw [positionsIn, made.positions, numbered_snd]

/-- A step from the members of a path. -/
theorem leavesPositions_over {head : ExprNode} (follows : Follows head) {before : Expr}
    (some_ : before ≠ .null) {heap after : Heap} {inside region : NodeId → Prop}
    (stays : Stays env (xpathExecuteScalar env depth before)) (setting : Setting env heap inside region)
    (member : region current) {value : RValue Num} {nodes : List NodeId}
    (stepped : xpathExecuteScalar env depth (.node head before .null) current heap =
      some (value, after)) (listed : members value after = some nodes) :
    LeavesPositions env depth current (.node head before .null) heap (positionsIn after nodes) := by
  cases begun : xpathExecuteScalar env depth before current heap with
  | none => exact absurd ((stepOver_none follows some_ begun).symm.trans stepped) nofun
  | some result =>
      rcases result with ⟨first, middle⟩
      rcases stays.found setting member begun with ⟨grown, sources, found⟩
      have larger : Found env middle inside grown grown first sources :=
        ⟨found.setting, fun _ known => known, found.listed, found.inRegion⟩
      have left := step_positions follows some_ begun larger stepped listed
      cases axis : head.type.isAxis with
      | true =>
          rcases exists_candidates follows some_ begun larger stepped with ⟨groups, _, candidates⟩
          have items := candidates.items
          rw [show stepItems head middle = fun c => (axisNodes head.type middle c head.kind).map
            (List.map fun s => item middle s.1) from funext fun c => stepItems_axis axis middle c,
            mapM_map] at items
          rcases Option.map_eq_some_iff.mp items with ⟨lists, counted, _⟩
          rw [positionsIn, left.1 axis lists counted]
          exact .axisOver axis some_ begun found.listed counted
      | false =>
          rw [positionsIn, left.2 axis]
          apply LeavesPositions.through
          rcases follows with isAxis | attr | attrAll
          · exact absurd isAxis (Bool.eq_false_iff.mp axis)
          · exact .inr (.inr (.inr ⟨attr, some_⟩))
          · exact .inr (.inl attrAll)

/-- A step from the current node. -/
theorem leavesPositions_leaf {head : ExprNode} (follows : Follows head) {heap after : Heap}
    {inside region : NodeId → Prop} (setting : Setting env heap inside region)
    (member : region current) {value : RValue Num} {nodes : List NodeId}
    (stepped : xpathExecuteScalar env depth (.leaf head) current heap = some (value, after))
    (listed : members value after = some nodes) :
    LeavesPositions env depth current (.leaf head) heap (positionsIn after nodes) := by
  change executeNode env (keyEval env depth) head [] current heap = _ at stepped
  rcases follows with axis | attr | attrAll
  · rw [executeNode_axis env _ axis] at stepped
    unfold xpathSelectCommon at stepped
    rcases Option.bind_eq_some_iff.mp stepped with ⟨sources, found, done⟩
    have sourced := setting.closed.axisNodes_region member found
    rcases setting.newSelection sourced with ⟨copies, start, made⟩
    simp only at done
    rw [start] at done
    cases done
    rw [Option.some.inj (listed.symm.trans made.listed), positionsIn, made.positions]
    exact .axis axis found
  · apply LeavesPositions.attribute_ attr
    unfold executeNode attributeStep at stepped
    simp only [attr] at stepped
    rcases Option.bind_eq_some_iff.mp stepped with ⟨found, _, done⟩
    cases found with
    | none =>
        cases done
        cases listed
        exact .inl rfl
    | some text =>
        cases done
        rcases newAttribute_get heap text with ⟨extended, made⟩
        have alone : siblings (newAttribute heap text).1 (some heap.size) = some [heap.size] := by
          apply siblings_of_chain
          · apply Chain.cons
            rw [made]
            exact .nil
          · intro n at_
            rw [List.mem_singleton.mp at_]
            exact Nat.lt_succ_self _
        rw [Option.some.inj (listed.symm.trans alone)]
        right
        change [((newAttribute heap text).1.get heap.size).position] = [0]
        rw [made]
        rfl
  · unfold executeNode allAttributesStep at stepped
    simp only [attrAll] at stepped
    have copied : Appended env.locals heap (addToSelection heap none current 1).1 none [heap.size]
        [(current, 1)] := addToSelection_appended (setting.closed.bound member) nofun nofun
    have sourced : ∀ s ∈ [(current, 1)], region s.1 := by
      intro s at_
      rw [List.mem_singleton.mp at_]
      exact member
    have later := setting.appended copied sourced
    rcases Option.bind_eq_some_iff.mp stepped with ⟨⟨last, set⟩, collected, done⟩
    cases done
    unfold xpathGetAttrs at collected
    rcases Option.bind_eq_some_iff.mp collected with ⟨lists, found, collected⟩
    have inRegion : ∀ c ∈ [heap.size], region c ∨ c ∈ [heap.size] := fun c at_ => .inr at_
    have attributes := later.closed.attributes_sourced inRegion found
    rcases later.newSelection attributes with ⟨copies, start, made⟩
    cases collected
    change members (.nodeset (newSelection (addToSelection heap none current 1).1
      (numbered lists.flatten)).2 : RValue Num) _ = some nodes at listed
    rw [start] at listed
    rw [Option.some.inj (listed.symm.trans made.listed)]
    refine (congrArg (LeavesPositions env depth current (.leaf head) heap) made.numbers).mpr ?_
    exact .through _ (.inr (.inl attrAll))

/-- `text()` and `node()`. -/
theorem leavesPositions_call {name : Bytes} (known : name = lit "text" ∨ name = lit "node")
    {before : Expr} {heap after : Heap} {inside region : NodeId → Prop}
    (setting : Setting env heap inside region) (member : region current) {value : RValue Num}
    {nodes : List NodeId} (evaluated : xpathExecuteScalar env depth
      (.node { type := .call, name := some name } before .null) current heap = some (value, after))
    (listed : members value after = some nodes) :
    LeavesPositions env depth current (.node { type := .call, name := some name } before .null) heap
      (positionsIn after nodes) := by
  have counted : ∀ count, positionsIn after nodes = List.range' 1 count →
      LeavesPositions env depth current (.node { type := .call, name := some name } before .null) heap
        (positionsIn after nodes) := by
    intro count same
    rw [same]
    exact .through count (.inr (.inr (.inl rfl)))
  have children : ∀ test : XmlNode → Bool, xfChildren test current heap = some (value, after) →
      Exists fun count => positionsIn after nodes = List.range' 1 count := by
    intro test done
    rcases setting.closed.siblings_children member with ⟨row, below, inDocument⟩
    have sourced : ∀ s ∈ numbered (row.filter fun node => test (heap.get node)), region s.1 := by
      intro s at_
      have inRow := List.mem_map_of_mem (f := Prod.fst) at_
      rw [numbered_fst] at inRow
      exact setting.closed.document (inDocument s.1 (List.mem_filter.mp inRow).1)
    rcases setting.newSelection sourced with ⟨copies, start, made⟩
    unfold xfChildren at done
    rw [below, Option.bind_eq_bind, Option.bind_some] at done
    simp only at done
    rw [start] at done
    cases done
    rw [Option.some.inj (listed.symm.trans made.listed), made.numbers]
    exact ⟨_, rfl⟩
  change xpathCallDispatcher env (keyEval env depth) name (operandsAt env depth before) current heap =
    some (value, after) at evaluated
  unfold xpathCallDispatcher at evaluated
  cases callback : env.perlFunctions name with
  | some callback =>
      rw [callback] at evaluated
      rcases Option.bind_eq_some_iff.mp evaluated with ⟨⟨values, middle⟩, _, evaluated⟩
      rcases Option.bind_eq_some_iff.mp evaluated with ⟨strings, _, done⟩
      cases done
      cases listed
      exact counted 0 rfl
  | none =>
      rw [callback] at evaluated
      simp only at evaluated
      rcases known with rfl | rfl
      · rw [if_neg (by decide), if_pos rfl] at evaluated
        rcases children _ evaluated with ⟨count, same⟩
        exact counted count same
      · rw [if_neg (by decide), if_neg (by decide), if_pos rfl] at evaluated
        rcases children _ evaluated with ⟨count, same⟩
        exact counted count same

/-- What passes a predicate. -/
theorem leavesPositions_filter {head : ExprNode} {children predicate : Expr} {heap after : Heap}
    {inside region : NodeId → Prop}
    (stays : Stays env (xpathExecuteScalar env depth (.node head children .null)))
    (setting : Setting env heap inside region) (member : region current) {value : RValue Num}
    {nodes : List NodeId} (evaluated : xpathExecuteScalar env depth
      (.node { type := .filter } (.node head children predicate) .null) current heap =
        some (value, after))
    (listed : members value after = some nodes) :
    LeavesPositions env depth current
      (.node { type := .filter } (.node head children predicate) .null) heap
      (positionsIn after nodes) := by
  have whole := evaluated
  rw [xpathExecuteScalar_filter] at evaluated
  rcases Option.bind_eq_some_iff.mp evaluated with ⟨⟨first, middle⟩, begun, evaluated⟩
  rcases stays.found setting member begun with ⟨grown, members_, found⟩
  cases first with
  | nodeset set =>
      rcases filter_spec rfl begun found whole with
        ⟨filtered, _, _, copies, flags, rfl, made, _⟩
      rw [Option.some.inj (listed.symm.trans made.listed), made.numbers]
      exact .through _ (.inl rfl)
  | null | bool | int | number | string =>
      cases evaluated
      have none_ : members (.nodeset none : RValue Num) middle = some [] :=
        siblings_of_chain .nil nofun
      rw [Option.some.inj (listed.symm.trans none_)]
      exact .through 0 (.inl rfl)

/-- The copy of the current node that a path begins with. -/
theorem stays_context : Stays env (xpathExecuteScalar env depth (.leaf { type := .context })) := by
  constructor
  intro heap after inside region current value setting member evaluated
  have sourced : ∀ s ∈ [(current, 1)], region s.1 := by
    intro s at_
    rw [List.mem_singleton.mp at_]
    exact member
  rcases @Setting.start Num env heap inside region setting current current member with
    ⟨last, copy, begun, made⟩
  have done : some (value, after) = some (.nodeset (some copy), last) := evaluated.symm.trans begun
  cases done
  exact ⟨_, [copy], setting.found made sourced⟩

/-- A step of a path behind what comes before it. -/
theorem leavesPositions_attach {step : Step} (valid : step.Valid) {before : Expr}
    {heap after : Heap} {inside region : NodeId → Prop}
    (stays : Stays env (xpathExecuteScalar env depth before)) (some_ : before ≠ .null)
    (setting : Setting env heap inside region)
    (member : region current) {value : RValue Num} {nodes : List NodeId}
    (evaluated : xpathExecuteScalar env depth (step.attach before) current heap = some (value, after))
    (listed : members value after = some nodes) :
    LeavesPositions env depth current (step.attach before) heap (positionsIn after nodes) := by
  by_cases call : step = .text ∨ step = .node
  · rcases call with rfl | rfl
    · exact leavesPositions_call (.inl rfl) setting member evaluated listed
    · exact leavesPositions_call (.inr rfl) setting member evaluated listed
  · rw [not_or] at call
    exact leavesPositions_over (step.follows valid call) some_ stays setting member evaluated listed

/-- Every path leaves positions that its end tells. -/
theorem Path.leavesPositions {text : Bytes} {tree : Expr} (path : Path text tree)
    {heap after : Heap} {inside region : NodeId → Prop} (setting : Setting env heap inside region)
    (member : region current) {value : RValue Num} {nodes : List NodeId}
    (evaluated : xpathExecuteScalar env depth tree current heap = some (value, after))
    (listed : members value after = some nodes) :
    LeavesPositions env depth current tree heap (positionsIn after nodes) := by
  have down : ∀ {before : Expr}, before ≠ .null → Stays env (xpathExecuteScalar env depth before) →
      xpathExecuteScalar env depth (descendantStep before) current heap = some (value, after) →
      LeavesPositions env depth current (descendantStep before) heap (positionsIn after nodes) :=
    fun some_ stays evaluated =>
      leavesPositions_over (.inl rfl) some_ stays setting member evaluated listed
  cases path with
  | first step valid rooted =>
      by_cases call : step = .text ∨ step = .node
      · rcases call with rfl | rfl
        · exact leavesPositions_call (.inl rfl) setting member evaluated listed
        · exact leavesPositions_call (.inr rfl) setting member evaluated listed
      · rw [not_or] at call
        unfold Step.first at evaluated ⊢
        cases anchors : step.anchors with
        | false =>
            rw [anchors] at evaluated
            exact leavesPositions_leaf (step.follows valid call) setting member evaluated listed
        | true =>
            rw [anchors] at evaluated
            cases rooted with
            | false =>
                exact leavesPositions_attach valid stays_context nofun setting member evaluated listed
            | true =>
                exact leavesPositions_attach valid stays_root nofun setting member evaluated listed
  | firstDeep step valid _ =>
      exact leavesPositions_attach valid (Path.firstDeepAll.stays env depth) nofun setting member
        evaluated listed
  | firstDeepAll => exact down nofun stays_root evaluated
  | @step before tree path step valid =>
      rcases path.alone with ⟨_, _, rfl⟩
      exact leavesPositions_attach valid (path.stays env depth) nofun setting member evaluated listed
  | @deep before tree path step valid _ =>
      rcases path.alone with ⟨_, _, rfl⟩
      exact leavesPositions_attach valid (path.deepAll.stays env depth) nofun setting member
        evaluated listed
  | deepAll path =>
      rcases path.alone with ⟨_, _, rfl⟩
      exact down nofun (path.stays env depth) evaluated
  | filter path _ built =>
      rcases path.alone with ⟨_, _, rfl⟩
      cases built
      exact leavesPositions_filter (path.stays env depth) setting member evaluated listed

end Producers

/-! ## Unions -/

/-- The positions that a list of nodes is given one by one. -/
theorem setPositions_get (sources : List (NodeId × Nat)) (heap : Heap)
    (distinct : (sources.map Prod.fst).Nodup) :
    (∀ n, n ∉ sources.map Prod.fst → (sources.foldl
      (fun heap node => heap.modify node.1 fun cell => { cell with position := node.2 }) heap).get n =
        heap.get n) ∧
    positionsIn (sources.foldl
      (fun heap node => heap.modify node.1 fun cell => { cell with position := node.2 }) heap)
        (sources.map Prod.fst) = sources.map Prod.snd := by
  induction sources generalizing heap with
  | nil => exact ⟨fun _ _ => rfl, rfl⟩
  | cons s rest inductionHypothesis =>
      have fresh := List.nodup_cons.mp distinct
      have later := inductionHypothesis
        (heap.modify s.1 fun cell => { cell with position := s.2 }) fresh.2
      refine ⟨fun n outside => ?_, ?_⟩
      · rw [List.map_cons, List.mem_cons, not_or] at outside
        exact (later.1 n outside.2).trans (Arena.modify_get_of_ne _ _ outside.1)
      · refine congrArg₂ List.cons ?_ later.2
        refine (congrArg XmlNode.position (later.1 s.1 fresh.1)).trans ?_
        rw [Arena.modify_get_same]

/-- The positions behind `xml_add_siblings`. -/
theorem xmlAddSiblings_positions {heap after : Heap} {prev src last : Ptr} {pos pos' : Nat}
    {new : List NodeId} (listed : siblings heap src = some new)
    (apart : ∀ p, prev = some p → p ∉ new)
    (added : xmlAddSiblings heap prev src pos = some (after, last, pos')) :
    pos' = pos + new.dropLast.length ∧
      (∀ n, n ∉ new → (after.get n).position = (heap.get n).position) ∧
      positionsIn after new = List.range' (pos + 1) new.dropLast.length ++
        (positionsIn heap new).getLast?.toList := by
  have chain := (follow_eq_some_iff.mp listed).1
  cases src with
  | none =>
      cases chain
      cases added
      exact ⟨rfl, fun _ _ => rfl, rfl⟩
  | some head =>
      have isHead : head ∈ new := List.mem_of_mem_head? chain.start_eq.symm
      have links := joinLists_spec heap isHead apart
      have joined : ∀ n, ((joinLists heap prev head).get n).position = (heap.get n).position := by
        intro n
        unfold joinLists
        cases prev with
        | none => rfl
        | some p =>
            simp only [setNext]
            by_cases onHead : n = head
            · subst onHead
              have different : n ≠ p := fun same => apart p rfl (same ▸ isHead)
              rw [Arena.modify_get_same, Arena.modify_get_of_ne _ _ different]
            · rw [Arena.modify_get_of_ne _ _ onHead]
              by_cases onLast : n = p
              · subst onLast
                rw [Arena.modify_get_same]
              · rw [Arena.modify_get_of_ne _ _ onLast]
      have still : siblings (joinLists heap prev head) (some head) = some new := by
        apply follow_eq_some_iff.mpr
        constructor
        · apply chain.congr
          intro n at_
          rw [links.2.1 n, if_neg fun same => apart n same at_]
        · rw [links.1.size]
          exact (follow_eq_some_iff.mp listed).2
      change (do
        let nodes ← siblings (joinLists heap prev head) (some head)
        some ((nodes.dropLast.zipIdx (pos + 1)).foldl
          (fun (heap : Heap) (node : NodeId × Nat) => heap.modify node.1 fun cell => { cell with position := node.2 })
          (joinLists heap prev head), nodes.getLast?, pos + nodes.dropLast.length)) = _ at added
      rw [still, Option.bind_eq_bind, Option.bind_some] at added
      cases added
      have firsts : (new.dropLast.zipIdx (pos + 1)).map Prod.fst = new.dropLast :=
        List.zipIdx_map_fst (pos + 1) new.dropLast
      have parts := List.dropLast_append_getLast (List.ne_nil_of_mem isHead)
      have distinct := chain.nodup
      rw [← parts] at distinct
      have halves := List.nodup_append.mp distinct
      have placed := setPositions_get (new.dropLast.zipIdx (pos + 1)) (joinLists heap prev head)
        (firsts.symm ▸ halves.1)
      rw [firsts, List.zipIdx_map_snd] at placed
      refine ⟨rfl, ?_, ?_⟩
      · intro n outside
        rw [placed.1 n fun at_ => outside (List.dropLast_subset new at_), joined]
      · have final : new.getLast (List.ne_nil_of_mem isHead) ∉ new.dropLast := fun at_ =>
          halves.2.2 _ at_ _ List.mem_cons_self rfl
        have split : ∀ memory : Heap, positionsIn memory new = positionsIn memory new.dropLast ++
            [(memory.get (new.getLast (List.ne_nil_of_mem isHead))).position] := by
          intro memory
          conv_lhs => rw [← parts]
          rw [positionsIn, List.map_append, List.map_singleton]
        rw [split, placed.2, placed.1 _ final, joined, positionsIn, List.getLast?_map,
          List.getLast?_eq_some_getLast (List.ne_nil_of_mem isHead)]
        rfl

/-- The positions that every operand leaves, each in a memory that has kept the
region. -/
def PositionParts {Num : Type} [Double Num] (env : Env Num) (depth : Nat) (current : NodeId)
    (heap : Heap) (region : NodeId → Prop) (trees : List Expr) (lists : List (List Nat)) : Prop :=
  List.Forall₂ (fun tree own => Exists fun memory => Later heap region memory ∧
    LeavesPositions env depth current tree memory own) trees lists

section Joining

variable {Num : Type} [Double Num] {env : Env Num} {depth : Nat} {current : NodeId}

theorem PositionParts.earlier {heap memory : Heap} {region : NodeId → Prop} {trees : List Expr}
    {lists : List (List Nat)} (parts : PositionParts env depth current memory region trees lists)
    (later : Later heap region memory) : PositionParts env depth current heap region trees lists := by
  apply List.Forall₂.imp _ parts
  rintro tree own ⟨last, kept, left⟩
  exact ⟨last, ⟨Nat.le_trans later.grows kept.grows, fun n known =>
    (kept.same n known).trans (later.same n known)⟩, left⟩

/-- The loop of a union counts on from operand to operand. -/
theorem unionOperands_positions {trees : List Expr} {operands : List (Operand Num)}
    (each : List.Forall₂ (UnionOperand env depth) trees operands)
    (leaves : ∀ tree ∈ trees, ∀ {heap after : Heap} {inside region : NodeId → Prop}
      {value : RValue Num} {nodes : List NodeId}, Setting env heap inside region → region current →
      xpathExecuteScalar env depth tree current heap = some (value, after) →
      members value after = some nodes →
      LeavesPositions env depth current tree heap (positionsIn after nodes))
    {heap after : Heap} {inside region grown : NodeId → Prop} {tmp selection set : Ptr}
    {nodes : List NodeId} {pos : Nat} (member : region current)
    (gathered : Gathered env heap inside region grown tmp selection nodes)
    (done : unionOperands operands current heap tmp selection pos = some (set, after)) :
    Exists fun nodes' => Exists fun lists => siblings after set = some nodes' ∧
      positionsIn after nodes' = positionsIn heap nodes ++ joinedPositions pos lists ∧
      PositionParts env depth current heap region trees lists := by
  induction each generalizing heap grown tmp selection nodes pos with
  | nil =>
      cases done
      have listed := siblings_of_chain gathered.chain fun n at_ =>
        gathered.setting.closed.bound (gathered.inGrown n at_)
      exact ⟨nodes, [], listed, (List.append_nil _).symm, .nil⟩
  | @cons tree operand trees operands here others inductionHypothesis =>
      have onward := @inductionHypothesis fun tree at_ => leaves tree (List.mem_cons_of_mem _ at_)
      rcases Option.bind_eq_some_iff.mp done with ⟨⟨value, middle⟩, begun, done⟩
      rw [here.run] at begun
      have outcome := xpathExecuteScalar_framed env depth _ _ _ _ _ gathered.setting.old begun
      have allocates := outcome.allocates
      rcases here.stays.found gathered.setting (gathered.larger _ member) begun with
        ⟨later, new, found⟩
      have moved := gathered.evaluated allocates found
      have own := leaves tree List.mem_cons_self gathered.setting (gathered.larger _ member) begun
        found.listed
      have kept : ∀ n, grown n → middle.get n = heap.get n := fun n known =>
        allocates.same n (gathered.setting.closed.bound known) fun same =>
          gathered.setting.apart n same known
      have keptRegion : ∀ n, region n → middle.get n = heap.get n := fun n known =>
        kept n (gathered.larger n known)
      have keptPositions : positionsIn middle nodes = positionsIn heap nodes :=
        List.map_congr_left fun n at_ => congrArg XmlNode.position (kept n (gathered.inGrown n at_))
      have first : Exists fun memory => Later heap region memory ∧
          LeavesPositions env depth current tree memory (positionsIn middle new) :=
        ⟨heap, ⟨Nat.le_refl _, fun _ _ => rfl⟩, own⟩
      rcases here.isSet begun with rfl | ⟨src, rfl⟩
      · -- NULL, an attribute that is not there
        have none_ : new = [] := (Option.some.inj found.listed).symm
        rcases onward moved done with ⟨nodes', lists, listed, counted, parts⟩
        refine ⟨nodes', positionsIn middle new :: lists, listed, ?_, .cons first ?_⟩
        · rw [counted, keptPositions, none_]
          rfl
        · exact parts.earlier ⟨allocates.grows, keptRegion⟩
      · rcases Option.bind_eq_some_iff.mp done with ⟨added, found', done⟩
        cases found'
        rcases Option.bind_eq_some_iff.mp done with ⟨⟨joined, last, pos'⟩, added, done⟩
        have freshAll := allocates.siblings_fresh (outcome.fresh src rfl) found.listed
        have notOld : ∀ n ∈ new, ¬ grown n := fun n at_ known =>
          absurd (gathered.setting.closed.bound known) (Nat.not_lt.mpr (freshAll n at_).1)
        have fresh : ∀ n ∈ new, n ∉ nodes ∧ ¬ region n := fun n at_ =>
          ⟨fun old => notOld n at_ (gathered.inGrown n old), fun old =>
            notOld n at_ (gathered.larger n old)⟩
        have linked := moved.join found.listed found.inRegion fresh added
        have apart : ∀ p, tmp = some p → p ∉ new := fun p same at_ =>
          (fresh p at_).1 (List.mem_of_getLast? (gathered.last.symm.trans same))
        rcases xmlAddSiblings_positions found.listed apart added with ⟨rfl, others, new'⟩
        rcases onward linked.1 done with ⟨nodes', lists, listed, counted, parts⟩
        refine ⟨nodes', positionsIn middle new :: lists, listed, ?_, .cons first ?_⟩
        · have old : positionsIn joined nodes = positionsIn heap nodes := by
            rw [← keptPositions]
            exact List.map_congr_left fun n at_ => others n fun inNew => (fresh n inNew).1 at_
          have length : (positionsIn middle new).dropLast.length = new.dropLast.length := by
            rw [List.length_dropLast, List.length_dropLast, List.length_map]
          rw [counted, positionsIn, List.map_append]
          change positionsIn joined nodes ++ positionsIn joined new ++ _ = _
          rw [old, new', joinedPositions_cons, length, List.append_assoc, List.append_assoc]
        · have joinedKept := linked.2.2
          exact parts.earlier ⟨Nat.le_trans allocates.grows joinedKept.grows, fun n known =>
            (joinedKept.same n known).trans (keptRegion n known)⟩

end Joining

/-- A union of paths counts on from path to path. -/
theorem union_positions {Num : Type} [Double Num] {env : Env Num} {depth : Nat} {heap after : Heap}
    {inside region : NodeId → Prop} (setting : Setting env heap inside region) {current : NodeId}
    (member : region current) (tests : env.OwnTests) {texts : List Bytes} {trees : List Expr}
    (paths : List.Forall₂ Path texts trees) {operands : Expr}
    (linked : Expr.link trees = some operands) {value : RValue Num} {nodes : List NodeId}
    (evaluated : xpathExecuteScalar env depth (.node { type := .union } operands .null) current heap =
      some (value, after)) (listed : members value after = some nodes) :
    Exists fun lists => positionsIn after nodes = joinedPositions 0 lists ∧
      PositionParts env depth current heap region trees lists := by
  rcases Option.bind_eq_some_iff.mp (show (unionOperands (operandsAt env depth operands) current heap
    none none 0).bind (fun result => some ((.nodeset result.1 : RValue Num), result.2)) =
      some (value, after) from evaluated) with ⟨⟨set, last⟩, union, same⟩
  cases same
  have begun : Gathered env heap inside region region none none [] := by
    constructor
    · exact setting
    · exact setting.closed
    · exact fun _ known => known
    · exact .nil
    · rfl
    · exact nofun
    · exact nofun
  have leaves : ∀ tree ∈ trees, ∀ {heap after : Heap} {inside region : NodeId → Prop}
      {value : RValue Num} {nodes : List NodeId}, Setting env heap inside region → region current →
      xpathExecuteScalar env depth tree current heap = some (value, after) →
      members value after = some nodes →
      LeavesPositions env depth current tree heap (positionsIn after nodes) := by
    intro tree at_ heap after inside region value nodes setting member evaluated listed
    rcases List.mem_iff_getElem.mp at_ with ⟨i, small, rfl⟩
    have path := (List.forall₂_iff_get.mp paths).2 i ((List.Forall₂.length_eq paths).symm ▸ small) small
    exact Path.leavesPositions path setting member evaluated listed
  rcases unionOperands_positions (operandsAt_link paths tests linked) leaves member begun union with
    ⟨nodes', lists, known, counted, parts⟩
  rw [show members (.nodeset set : RValue Num) last = some nodes' from known] at listed
  cases listed
  exact ⟨lists, counted, parts⟩

/-! ## Axes that count through -/

/-- The axes that number what they find from one node from one on. -/
def ExprType.countsThrough : ExprType → Bool
  | .all | .select | .self | .parent | .descendant | .ancestor | .precedingSibling
  | .followingSibling => true
  | _ => false

theorem axisNodes_counted {type : ExprType} (through : type.countsThrough = true) {heap : Heap}
    {n : NodeId} {kind : Option Kind} {sources : List (NodeId × Nat)}
    (found : axisNodes type heap n kind = some sources) :
    sources.map Prod.snd = List.range' 1 sources.length := by
  have counted : ∀ nodes, some (numbered nodes) = some sources →
      sources.map Prod.snd = List.range' 1 sources.length := by
    rintro nodes ⟨⟩
    rw [numbered_snd, numbered, List.length_zipIdx]
  unfold axisNodes at found
  cases type <;> try cases through
  case self => exact counted _ found
  case parent =>
    simp only at found
    split at found
    · cases found
      rfl
    · split at found
      · cases found
        rfl
      · exact counted _ found
  all_goals
    rcases Option.bind_eq_some_iff.mp found with ⟨nodes, _, done⟩
    exact counted _ done

/-- Lists that are counted make a counted list where only one of them has
members. -/
theorem flatten_counted_iff {lists : List (List Nat)}
    (counted : ∀ own ∈ lists, own = List.range' 1 own.length) :
    lists.flatten = List.range' 1 lists.flatten.length ↔
      ∀ own ∈ lists, own = [] ∨ own.length = lists.flatten.length := by
  constructor
  · intro whole
    -- the first member of a list is one, so nothing stands before it
    have first : ∀ front own rest, lists = front ++ own :: rest → own ≠ [] →
        front.flatten = [] := by
      intro front own rest split some_
      have begins : own.head? = some 1 := by
        rw [counted own (split ▸ List.mem_append_right _ List.mem_cons_self), List.head?_range',
          if_neg fun none_ => some_ (List.length_eq_zero_iff.mp none_)]
      have flat : lists.flatten = front.flatten ++ (own ++ rest.flatten) := by
        rw [split, List.flatten_append, List.flatten_cons]
      have at_ : lists.flatten[front.flatten.length]? = some 1 := by
        rw [flat, List.getElem?_append_right (Nat.le_refl _), Nat.sub_self, ← List.head?_eq_getElem?,
          List.head?_append, begins]
        rfl
      rw [whole] at at_
      rcases List.getElem?_eq_some_iff.mp at_ with ⟨small, same⟩
      rw [List.getElem_range'] at same
      apply List.length_eq_zero_iff.mp
      omega
    intro own member
    by_cases empty : own = []
    · exact .inl empty
    · right
      rcases List.append_of_mem member with ⟨front, rest, split⟩
      have behind : rest.flatten = [] := by
        rw [List.flatten_eq_nil_iff]
        intro other inRest
        by_contra some_
        rcases List.append_of_mem inRest with ⟨between, last, split'⟩
        have before := first (front ++ own :: between) other last
          (by rw [split, split', List.append_assoc, List.cons_append]) some_
        exact empty (List.flatten_eq_nil_iff.mp before own
          (List.mem_append_right _ List.mem_cons_self))
      rw [split, List.flatten_append, List.flatten_cons, first front own rest split empty, behind,
        List.append_nil, List.nil_append]
  · intro alone
    cases flat : lists.flatten with
    | nil => rfl
    | cons n rest =>
        rcases List.mem_flatten.mp (flat ▸ List.mem_cons_self : n ∈ lists.flatten) with
          ⟨own, member, inOwn⟩
        have length := (alone own member).resolve_left (List.ne_nil_of_mem inOwn)
        have whole := (List.sublist_flatten_of_mem member).eq_of_length length
        rw [← flat, ← whole]
        exact counted own member

/-- From several nodes such an axis counts through where only one of them has
something on it. -/
theorem axisNodes_flatten_counted_iff {type : ExprType} (through : type.countsThrough = true)
    {heap : Heap} {kind : Option Kind} {nodes : List NodeId} {lists : List (List (NodeId × Nat))}
    (found : (nodes.mapM fun n => axisNodes type heap n kind) = some lists) :
    lists.flatten.map Prod.snd = List.range' 1 lists.flatten.length ↔
      ∀ sources ∈ lists, sources = [] ∨ sources.length = lists.flatten.length := by
  have each : ∀ own ∈ lists.map (List.map Prod.snd), own = List.range' 1 own.length := by
    intro own member
    rcases List.mem_map.mp member with ⟨sources, inLists, rfl⟩
    rcases List.forall₂_iff_get.mp (mapM_eq_some_iff.mp found) with ⟨length, all⟩
    rcases List.getElem_of_mem inLists with ⟨i, small, rfl⟩
    rw [List.length_map]
    exact axisNodes_counted through (all i (length ▸ small) small)
  have whole := flatten_counted_iff each
  rw [← List.map_flatten, List.length_map] at whole
  refine whole.trans ?_
  constructor
  · intro alone sources member
    have here := alone _ (List.mem_map_of_mem member)
    rwa [List.map_eq_nil_iff, List.length_map] at here
  · intro alone own member
    rcases List.mem_map.mp member with ⟨sources, inLists, rfl⟩
    rw [List.map_eq_nil_iff, List.length_map]
    exact alone sources inLists

/-! ## The rounds of an instruction -/

/-- The `select` of an instruction. -/
def VisitingInstruction.select : VisitingInstruction → Option Expr
  | .forEach select => some select
  | .applyTemplates select => select

section Instructions

variable {Num : Type} [Double Num] {env : Env Num} {depth : Nat} {current : NodeId}
  {before heap : Heap} {selection : Ptr} {selected : List NodeId}

/-- What a `select` selects are the members of its value, evaluated in a memory
in which `locals` holds the current node. -/
theorem selection_evaluated {instruction : VisitingInstruction} {tree : Expr}
    (select : instruction.select = some tree) (some_ : tree ≠ .null)
    {inside region : NodeId → Prop} (setting : Setting env before inside region)
    (selects : instruction.selection env depth current before = some (selection, heap))
    (listed : siblings heap selection = some selected) :
    Exists fun begun => Exists fun value => Later before region begun ∧
      Setting env begun inside region ∧
      xpathExecuteScalar env depth tree current begun = some (value, heap) ∧
      members value heap = some selected := by
  have evaluated : xpathEvalSelection env (xpathExecuteScalar env depth) tree current before =
      some (selection, heap) := by
    cases instruction with
    | forEach other =>
        cases select
        exact selects
    | applyTemplates other =>
        cases select
        exact selects
  unfold xpathEvalSelection at evaluated
  rw [if_neg some_] at evaluated
  rcases Option.bind_eq_some_iff.mp evaluated with ⟨l, here, evaluated⟩
  rcases Option.bind_eq_some_iff.mp evaluated with ⟨⟨value, last⟩, run, done⟩
  have placed := setCurrent_allocates before here current
  refine ⟨_, value, ⟨placed.grows, ?_⟩, setting.allocates placed, ?_⟩
  · intro n known
    exact placed.same n (setting.closed.bound known) fun same => setting.apart n same known
  · cases value with
    | nodeset set =>
        cases done
        exact ⟨run, listed⟩
    | null | bool | int | number | string =>
        cases done
        refine ⟨run, ?_⟩
        rw [siblings_of_chain .nil nofun] at listed
        exact listed

/-- In every visit whose rounds leave the list alone, each round sees its index
and the count of the nodes exactly where two or more nodes were sorted or the
selection was numbered through.  The children of a node are numbered by the
document where none is character data; what a path or a union of paths selects
has the positions that its end leaves. -/
theorem visit_counted_iff (instruction : VisitingInstruction) (children : List InstructionChild)
    {after : Heap} {visited : List NodeId} (old : Old env.locals before)
    (selects : instruction.selection env depth current before = some (selection, heap))
    (listed : siblings heap selection = some selected)
    (arrives : instruction.visited env depth children current before = some (after, visited)) :
    (∀ {round : NodeId → Heap → Heap → Prop} {start last : Heap} {rounds : List (NodeId × Heap)},
      (∀ n ∈ visited, ∀ before after, round n before after → KeepsPlaces visited before after) →
      KeepsPlaces visited after start → Visits round start visited.head? rounds last →
      rounds.map Prod.fst = visited ∧ (CountedRounds rounds ↔
        instruction.sorts children ≠ [] ∧ 2 ≤ selected.length ∨ Numbered heap selected)) ∧
    (instruction.select = none → positionsIn before selected = siblingPositions before 1 selected →
      (Numbered heap selected ↔ ∀ n ∈ selected, (before.get n).type ≠ .text)) ∧
    (∀ {inside region : NodeId → Prop}, Setting env before inside region → region current →
      (∀ {text : Bytes} {tree : Expr}, Path text tree → instruction.select = some tree →
        Exists fun begun => Exists fun own => Later before region begun ∧
          LeavesPositions env depth current tree begun own ∧
          (Numbered heap selected ↔ own = List.range' 1 own.length)) ∧
      ∀ {texts : List Bytes} {trees : List Expr} {operands : Expr}, env.OwnTests →
        List.Forall₂ Path texts trees → Expr.link trees = some operands →
        instruction.select = some (.node { type := .union } operands .null) →
        Exists fun lists => PositionParts env depth current before region trees lists ∧
          (Numbered heap selected ↔
            joinedPositions 0 lists = List.range' 1 (joinedPositions 0 lists).length)) := by
  have counted : ∀ {own}, positionsIn heap selected = own →
      (Numbered heap selected ↔ own = List.range' 1 own.length) := by
    rintro own rfl
    rw [numbered_iff, List.length_map]
  refine ⟨?_, ?_, ?_⟩
  · intro round start last rounds keeps begun visits
    unfold VisitingInstruction.visited at arrives
    rw [selects, Option.bind_eq_bind, Option.bind_some] at arrives
    rcases Option.bind_eq_some_iff.mp arrives with ⟨⟨memory, sorted⟩, done, arrives⟩
    rcases Option.bind_eq_some_iff.mp arrives with ⟨nodes, relisted, done'⟩
    cases done'
    have still : Old env.locals heap := by
      cases instruction with
      | forEach select =>
          exact old.grow (xpathEvalSelection_allocates env (xpathExecuteScalar_framed env depth) old
            selects).1
      | applyTemplates select =>
          cases select with
          | none =>
              cases selects
              exact old
          | some select =>
              exact old.grow (xpathEvalSelection_allocates env (xpathExecuteScalar_framed env depth)
                old selects).1
    have list := follow_eq_some_iff.mp relisted
    have chain : Siblings start visited.head? visited := by
      rw [← list.1.start_eq]
      exact list.1.congr begun.next
    rcases visits.counted_iff keeps chain (Nat.le_trans list.2 begun.grows) with ⟨same, meets⟩
    refine ⟨same, meets.trans ?_⟩
    rw [← sortSelection_numbered_iff still listed done relisted, numbered_iff, numbered_iff,
      List.map_congr_left begun.position]
  · intro none_ placed
    have same : heap = before := by
      cases instruction with
      | forEach select => cases none_
      | applyTemplates select =>
          cases none_
          cases selects
          rfl
    rw [same, numbered_iff, ← siblingPositions_eq_iff Nat.one_pos, ← placed]
  · intro inside region setting member
    constructor
    · intro text tree path select
      have some_ : tree ≠ .null := by
        rcases path.alone with ⟨_, _, rfl⟩
        exact nofun
      rcases selection_evaluated select some_ setting selects listed with
        ⟨begun, value, later, setting', evaluated, members_⟩
      have left := path.leavesPositions setting' member evaluated members_
      exact ⟨begun, _, later, left, counted rfl⟩
    · intro texts trees operands tests paths linked select
      rcases selection_evaluated select nofun setting selects listed with
        ⟨begun, value, later, setting', evaluated, members_⟩
      rcases union_positions setting' member tests paths linked evaluated members_ with
        ⟨lists, joined, parts⟩
      exact ⟨lists, parts.earlier later, counted joined⟩

end Instructions

/-! ## Rounds that do nothing -/

/-- A round that leaves the memory as it is. -/
def idleRound (_ : NodeId) (before after : Heap) : Prop := after = before

theorem visits_idle {heap : Heap} {start : Ptr} {nodes : List NodeId}
    (chain : Siblings heap start nodes) :
    Visits idleRound heap start (nodes.map fun n => (n, heap)) heap := by
  induction chain with
  | nil => exact .done heap
  | cons node rest _ inductionHypothesis => exact .next rfl inductionHypothesis

theorem idleRound_keeps (nodes : List NodeId) :
    ∀ n ∈ nodes, ∀ before after, idleRound n before after → KeepsPlaces nodes before after := by
  rintro n _ before after rfl
  exact .refl nodes _

theorem disagreeing_setting : Setting disagreeingEnv disagreeingHeap
    (Made 0 (memoryAfter 120 disagreeing)) (From 0 (memoryAfter 120 disagreeing)) := by
  have parsed : DoParse .empty disagreeing (some 0) (memoryAfter 120 disagreeing) := ⟨120, rfl⟩
  have root : Made 0 (memoryAfter 120 disagreeing) 0 := by
    refine ⟨Nat.le_refl 0, ?_, ?_⟩ <;> decide
  have locals : ∀ l, disagreeingEnv.locals = some l →
      (memoryAfter 120 disagreeing).size ≤ l ∧ l < disagreeingHeap.size := by
    rintro l ⟨⟩
    constructor <;> decide
  exact (DoParse.region parsed).setting ((Arena.Extends.refl _).alloc _) root locals

/-- The two elements `a` are numbered through by the path that selects them. -/
theorem visit_counted_iff_elements : Exists fun selection => Exists fun heap =>
    Exists fun after =>
      eachElement.selection disagreeingEnv 0 1 disagreeingHeap = some (selection, heap) ∧
      eachElement.visited disagreeingEnv 0 [] 1 disagreeingHeap = some (after, [10, 11]) ∧
      (CountedRounds [(10, after), (11, after)] ↔
        eachElement.sorts [] ≠ [] ∧ 2 ≤ [10, 11].length ∨ Numbered heap [10, 11]) ∧
      Exists fun begun => Exists fun own =>
        Later disagreeingHeap (From 0 (memoryAfter 120 disagreeing)) begun ∧
        LeavesPositions disagreeingEnv 0 1 (Step.first (.named (lit "a")) false) begun own ∧
        (Numbered heap [10, 11] ↔ own = List.range' 1 own.length) := by
  have selects : (eachElement.selection disagreeingEnv 0 1 disagreeingHeap).bind
      (fun result => siblings result.2 result.1) = some [10, 11] := by decide
  have visits : (eachElement.visited disagreeingEnv 0 [] 1 disagreeingHeap).bind
      (fun result => siblings result.1 result.2.head?) = some [10, 11] := by decide
  have nodes : (eachElement.visited disagreeingEnv 0 [] 1 disagreeingHeap).map Prod.snd =
      some [10, 11] := by decide
  rcases Option.bind_eq_some_iff.mp selects with ⟨⟨selection, heap⟩, selected, listed⟩
  rcases Option.map_eq_some_iff.mp nodes with ⟨⟨after, visited⟩, arrives, same⟩
  cases same
  rw [arrives, Option.bind_some] at visits
  have element : From 0 (memoryAfter 120 disagreeing) 1 := by
    refine ⟨Nat.zero_le 1, ?_⟩
    decide
  have law := visit_counted_iff eachElement [] disagreeing_setting.old selected listed arrives
  have loop := visits_idle (follow_eq_some_iff.mp visits).1
  refine ⟨selection, heap, after, selected, arrives, ?_, ?_⟩
  · exact (law.1 (idleRound_keeps _) (.refl _ _) loop).2
  · exact (law.2.2 disagreeing_setting element).1 path_a rfl

/-- Character data among the children has no position, and the element behind
it the first one; the elements `b` of two parents are counted twice. -/
theorem rounds_are_miscounted :
    (XmlParseString .empty nestedText 0 (parsedMemory 60 nestedText) ∧
      (VisitingInstruction.applyTemplates none).visited (Env.bare Int 0) 0 [] 1
        (parsedMemory 60 nestedText) = some (parsedMemory 60 nestedText, [2, 3]) ∧
      Visits idleRound (parsedMemory 60 nestedText) (some 2)
        [(2, parsedMemory 60 nestedText), (3, parsedMemory 60 nestedText)]
        (parsedMemory 60 nestedText) ∧
      positionsIn (parsedMemory 60 nestedText) [2, 3] = [0, 1] ∧
      ¬ CountedRounds [(2, parsedMemory 60 nestedText), (3, parsedMemory 60 nestedText)]) ∧
    ((memberNodes (Env.bare Int 0) 0 (lit "*/b") 1 (memoryAfter 60 twoParents)).map
      fun found => positionsIn found.2 found.1) = some [1, 2, 1, 2, 3] := by
  have listed : siblings (parsedMemory 60 nestedText) (some 2) = some [2, 3] := by decide
  have chain := (follow_eq_some_iff.mp listed).1
  refine ⟨⟨xmlParseString_of_run ⟨60, rfl⟩ (by decide) (by decide), rfl, visits_idle chain, by decide,
    ?_⟩, by decide⟩
  intro counted
  have place : ((parsedMemory 60 nestedText).get 2).position = 1 := (counted 0 (by decide)).position
  exact absurd place (by decide)

end TurboXSL
