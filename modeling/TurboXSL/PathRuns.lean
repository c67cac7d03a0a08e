import TurboXSL.PathSteps

namespace TurboXSL

open Library

/-!
# Runs of location paths

What each kind of step does with the node-set before it, and from it, by
induction on the path, that a location path stays inside of the region in
which it is evaluated.
-/

/-! ## Attributes -/

/-- The node that a step to an attribute makes for its value. -/
def attributeNode (n : NodeId) (value : Bytes) : XmlNode :=
  { type := .attribute, uid := some n, content := some value }

theorem newAttribute_get (heap : Heap) (value : Bytes) :
    heap.Extends (newAttribute heap value).1 ∧
      (newAttribute heap value).1.get heap.size = attributeNode heap.size value := by
  have made : heap.Extends (xmlNewNode heap none .attribute).1 := (Arena.Extends.refl heap).alloc _
  constructor
  · exact made.modify (Nat.le_refl _) fun cell => { cell with content := some value }
  · unfold newAttribute xmlNewNode
    simp only
    rw [Arena.modify_get_same, Arena.alloc_get_same]
    rfl

/-- These nodes hold these values. -/
def HoldsValues (heap : Heap) (first : NodeId) (sources : List (NodeId × Nat))
    (values : List Bytes) : Prop :=
  List.Forall₂ (fun s value => first ≤ s.1 ∧ s.1 < heap.size ∧
    heap.get s.1 = attributeNode s.1 value) sources values

theorem HoldsValues.later {heap after : Heap} {first first' : NodeId} {sources : List (NodeId × Nat)}
    {values : List Bytes} (holds : HoldsValues heap first sources values)
    (earlier : first' ≤ first) (grows : heap.size ≤ after.size)
    (same : ∀ s ∈ sources, after.get s.1 = heap.get s.1) : HoldsValues after first' sources values := by
  unfold HoldsValues at *
  rw [List.forall₂_iff_get] at *
  refine ⟨holds.1, ?_⟩
  intro i small small'
  have here := holds.2 i small small'
  refine ⟨Nat.le_trans earlier here.1, Nat.lt_of_lt_of_le here.2.1 grows, ?_⟩
  rw [same _ (List.get_mem _ _)]
  exact here.2.2

/-- The loop over a node-set copies a new attribute for every member that has
one, and counts them. -/
theorem attributesOf_appended {base : Heap} {inside region : NodeId → Prop}
    (closed : Region base inside region) (name : Option Bytes) (nodes : List NodeId)
    (inRegion : ∀ n ∈ nodes, region n) {heap : Heap} (extended : base.Extends heap) {t : Ptr}
    (new : ∀ p, t = some p → base.size ≤ p ∧ p < heap.size) (pos : Nat) :
    match nodes.mapM fun n => xmlGetAttr base name (base.size + 1) n with
    | none => attributesOf name heap t pos nodes = none
    | some values => Exists fun after => Exists fun copies => Exists fun sources =>
        attributesOf name heap t pos nodes = some (after, copies.head?) ∧
        Appended none heap after t copies sources ∧
        HoldsValues after heap.size sources (values.filterMap id) ∧
        sources.map Prod.snd = List.range' (pos + 1) sources.length := by
  induction nodes generalizing heap t pos with
  | nil => exact ⟨heap, [], [], rfl, .nil none heap t, .nil, rfl⟩
  | cons node rest inductionHypothesis =>
      have others := fun n at_ => inRegion n (List.mem_cons_of_mem node at_)
      have here : xmlGetAttr heap name (heap.size + 1) node =
          xmlGetAttr base name (base.size + 1) node := by
        apply closed.xmlGetAttr_keep extended.grows _ (inRegion node List.mem_cons_self)
        exact fun n member => extended.same n (closed.bound member)
      rw [List.mapM_cons]
      unfold attributesOf
      rw [here]
      cases found : xmlGetAttr base name (base.size + 1) node with
      | none => rfl
      | some value =>
          cases value with
          | none =>
              have later := inductionHypothesis others extended new pos
              simp only [Option.bind_eq_bind, Option.bind_some]
              cases behind : rest.mapM fun n => xmlGetAttr base name (base.size + 1) n with
              | none =>
                  rw [behind] at later
                  exact later
              | some values =>
                  rw [behind] at later
                  exact later
          | some value =>
              rcases newAttribute_get heap value with ⟨grown, made⟩
              have size : (newAttribute heap value).1.size = heap.size + 1 := rfl
              have small : heap.size < (newAttribute heap value).1.size := Nat.lt_succ_self _
              have notNew : t ≠ some heap.size := fun same =>
                Nat.lt_irrefl _ (new heap.size same).2
              have copied : Appended none (newAttribute heap value).1
                  (addToSelection (newAttribute heap value).1 t heap.size (pos + 1)).1 t
                  [heap.size + 1] [(heap.size, pos + 1)] :=
                addToSelection_appended small notNew fun p same =>
                  Nat.lt_succ_of_lt (new p same).2
              have noLocals : Old none heap := nofun
              have apart : ∀ p, t = some p → (none : Ptr) ≠ some p := nofun
              have begun : Appended none heap (newAttribute heap value).1 t [] [] :=
                .of_allocates (newAttribute_allocates (.refl none heap) value).1 nofun
              have first : Appended none heap
                  (addToSelection (newAttribute heap value).1 t heap.size (pos + 1)).1 t
                  [heap.size + 1] [(heap.size, pos + 1)] :=
                begun.trans noLocals apart copied nofun
              have firstSize := (copied.fresh _ (List.mem_singleton_self _)).2
              have extendedThen : base.Extends
                  (addToSelection (newAttribute heap value).1 t heap.size (pos + 1)).1 := by
                refine ⟨Nat.le_trans extended.grows first.grows, fun i old => ?_⟩
                have other : t ≠ some i := fun same => absurd old (Nat.not_lt.mpr (new i same).1)
                rw [first.same i (Nat.lt_of_lt_of_le old extended.grows) other nofun]
                exact extended.same i old
              have later := inductionHypothesis others extendedThen (t := some (heap.size + 1))
                (by
                  rintro p ⟨⟩
                  exact ⟨Nat.le_succ_of_le extended.grows, firstSize⟩) (pos + 1)
              simp only [Option.bind_eq_bind, Option.bind_some]
              cases behind : rest.mapM fun n => xmlGetAttr base name (base.size + 1) n with
              | none =>
                  rw [behind] at later
                  change (attributesOf name (addToSelection (newAttribute heap value).1 t heap.size
                    (pos + 1)).1 (some (heap.size + 1)) (pos + 1) rest).bind _ = none
                  rw [later]
                  rfl
              | some values =>
                  rw [behind] at later
                  rcases later with ⟨after, copies, sources, done, made', holds, counted⟩
                  refine ⟨after, (heap.size + 1) :: copies, (heap.size, pos + 1) :: sources, ?_, ?_,
                    ?_, ?_⟩
                  · change (attributesOf name (addToSelection (newAttribute heap value).1 t heap.size
                      (pos + 1)).1 (some (heap.size + 1)) (pos + 1) rest).bind _ = _
                    rw [done]
                    rfl
                  · apply first.join noLocals apart made'
                    intro s at_
                    cases List.mem_singleton.mp at_
                    refine ⟨Nat.lt_of_lt_of_le small copied.grows, ?_, nofun⟩
                    intro same
                    exact absurd (Option.some.inj same) (Nat.succ_ne_self _)
                  · have kept : after.get heap.size = attributeNode heap.size value := by
                      rw [made'.same heap.size (Nat.lt_of_lt_of_le small copied.grows) _ nofun,
                        copied.same heap.size small notNew nofun, made]
                      intro same
                      exact absurd (Option.some.inj same) (Nat.succ_ne_self _)
                    refine .cons ⟨Nat.le_refl _, ?_, kept⟩ ?_
                    · exact Nat.lt_of_lt_of_le small (Nat.le_trans copied.grows made'.grows)
                    · exact holds.later first.grows (Nat.le_refl _) fun _ _ => rfl
                  · rw [List.map_cons, List.length_cons, counted]
                    rfl

/-! ## Steps -/

/-- The types that `xpath_select_common` evaluates. -/
def ExprType.isAxis : ExprType → Bool
  | .all | .select | .parent | .self | .descendant | .descendantOrSelf | .ancestor
  | .ancestorOrSelf | .precedingSibling | .preceding | .followingSibling | .following => true
  | _ => false

/-- What a step yields from one node. -/
def stepItems (head : ExprNode) (heap : Heap) (c : NodeId) : Option (List Item) :=
  match head.type with
  | .attr => (xmlGetAttr heap head.name (heap.size + 1) c).map fun value =>
      value.toList.map fun text => .attribute none (some text)
  | .attrAll => (siblings heap (heap.get c).attributes).map (List.map (item heap))
  | _ => (axisNodes head.type heap c head.kind).map (List.map fun s => item heap s.1)

theorem stepItems_axis {head : ExprNode} (axis : head.type.isAxis = true) (heap : Heap) (c : NodeId) :
    stepItems head heap c =
      (axisNodes head.type heap c head.kind).map (List.map fun s => item heap s.1) := by
  unfold stepItems
  split
  next attr =>
    rw [attr] at axis
    cases axis
  next attrAll =>
    rw [attrAll] at axis
    cases axis
  next => rfl

theorem mapM_map {First Second Third : Type} (f : First → Option Second) (g : Second → Third)
    (list : List First) :
    (list.mapM fun a => (f a).map g) = (list.mapM f).map (List.map g) := by
  induction list with
  | nil => rfl
  | cons head rest inductionHypothesis =>
      rw [List.mapM_cons, List.mapM_cons, inductionHypothesis]
      cases f head <;> cases rest.mapM f <;> rfl

/-- The result is a node-set of these items, inside of a region that has grown;
where the items cannot be told, there is none. -/
def Meets {Num : Type} (env : Env Num) (inside region : NodeId → Prop)
    (result : Option (RValue Num × Heap)) (items : Option (List Item)) : Prop :=
  match items with
  | none => result = none
  | some items => Exists fun value => Exists fun after => Exists fun grown => Exists fun nodes =>
      result = some (value, after) ∧ Found env after inside region grown value nodes ∧
        nodes.map (item after) = items

section Steps

variable {Num : Type} {env : Env Num} {heap : Heap} {inside region : NodeId → Prop}
  (setting : Setting env heap inside region)

include setting

/-- A node-set of copies. -/
theorem Setting.meets {after : Heap} {copies : List NodeId} {sources : List (NodeId × Nat)}
    (made : Appended env.locals heap after none copies sources)
    (sourced : ∀ s ∈ sources, region s.1) :
    Meets env inside region (some (.nodeset copies.head?, after))
      (some (sources.map fun s => item heap s.1)) :=
  ⟨_, after, _, copies, rfl, setting.found made sourced, setting.items made sourced⟩

/-- An axis from the current node. -/
theorem Setting.axisLeaf {head : ExprNode} (axis : head.type.isAxis = true) {current : NodeId}
    (member : region current) :
    Meets env inside region (xpathSelectCommon head ([] : List (Operand Num)) current heap)
      (stepItems head heap current) := by
  rw [stepItems_axis axis]
  unfold xpathSelectCommon
  cases found : axisNodes head.type heap current head.kind with
  | none => rfl
  | some sources =>
      have sourced := setting.closed.axisNodes_region member found
      rcases setting.newSelection sourced with ⟨copies, start, made⟩
      simp only [Option.bind_eq_bind, Option.bind_some, Option.map_some]
      rw [start]
      exact setting.meets made sourced

/-- An axis from every member of a node-set. -/
theorem Setting.axisOver {head : ExprNode} (axis : head.type.isAxis = true) {nodes : List NodeId}
    (inRegion : ∀ c ∈ nodes, region c) :
    Meets env inside region
      ((xpathApplySelector (fun heap c => axisNodes head.type heap c head.kind) heap none nodes).map
        fun result => ((.nodeset result.2 : RValue Num), result.1))
      ((nodes.mapM (stepItems head heap)).map List.flatten) := by
  have each : stepItems head heap = fun c =>
      (axisNodes head.type heap c head.kind).map (List.map fun s => item heap s.1) :=
    funext fun c => stepItems_axis axis heap c
  rw [each, mapM_map]
  have applied := setting.applySelector head.type head.kind inRegion
  cases listing : nodes.mapM fun c => axisNodes head.type heap c head.kind with
  | none =>
      rw [listing] at applied
      simp only at applied
      rw [applied]
      rfl
  | some lists =>
      rw [listing] at applied
      rcases applied with ⟨sourced, after, copies, done, made⟩
      rw [done]
      simp only [Option.map_some]
      rw [← List.map_flatten]
      exact setting.meets made sourced

/-- New attributes, and copies of them. -/
theorem Setting.attributes {after : Heap} {copies : List NodeId} {sources : List (NodeId × Nat)}
    {values : List Bytes} (made : Appended none heap after none copies sources)
    (holds : HoldsValues after heap.size sources values) :
    Meets env inside region (some (.nodeset copies.head?, after))
      (some (values.map fun value => .attribute none (some value))) := by
  have kept : Region after inside region := setting.closed.keep made.grows fun n member =>
    made.same n (setting.closed.bound member) nofun nofun
  have isNew : ∀ s ∈ sources, Exists fun value => heap.size ≤ s.1 ∧ s.1 < after.size ∧
      after.get s.1 = attributeNode s.1 value := by
    intro s at_
    rcases List.getElem_of_mem at_ with ⟨i, small, rfl⟩
    rcases List.forall₂_iff_get.mp holds with ⟨length, all⟩
    exact ⟨_, all i small (length ▸ small)⟩
  have original : ∀ c ∈ copies, Exists fun s => s ∈ sources ∧ CopyOf after s.1 c := by
    intro c at_
    rcases List.forall₂_iff_get.mp made.copied with ⟨length, all⟩
    rcases List.getElem_of_mem at_ with ⟨i, small, rfl⟩
    exact ⟨_, List.get_mem _ ⟨i, length ▸ small⟩, (all i small (length ▸ small)).1⟩
  have grown : Region after inside fun n => region n ∨ n ∈ copies ∨ n ∈ sources.map Prod.fst := by
    apply kept.add
    · rintro n (copy | source)
      · exact (made.fresh n copy).2
      · rcases List.mem_map.mp source with ⟨s, at_, rfl⟩
        rcases isNew s at_ with ⟨_, _, small, _⟩
        exact small
    · rintro n m (copy | source) link
      · exact .inr (.inl (chain_next made.chain copy link))
      · rcases List.mem_map.mp source with ⟨s, at_, rfl⟩
        rcases isNew s at_ with ⟨_, _, _, here⟩
        rw [here] at link
        cases link
    · rintro n m (copy | source) link
      · exact (made.back n copy m link).elim (fun here => .inr (.inl here)) nofun
      · rcases List.mem_map.mp source with ⟨s, at_, rfl⟩
        rcases isNew s at_ with ⟨_, _, _, here⟩
        rw [here] at link
        cases link
    · rintro n src (copy | source) link
      · rcases original n copy with ⟨s, at_, copied⟩
        rw [copied.original] at link
        cases link
        exact ⟨.inr (.inr (List.mem_map_of_mem at_)), copied⟩
      · rcases List.mem_map.mp source with ⟨s, at_, rfl⟩
        rcases isNew s at_ with ⟨_, _, _, here⟩
        rw [here] at link
        cases link
    · rintro n (copy | source) link
      · rcases original n copy with ⟨s, _, copied⟩
        rw [copied.original] at link
        cases link
      · rcases List.mem_map.mp source with ⟨s, at_, rfl⟩
        rcases isNew s at_ with ⟨value, _, _, here⟩
        constructor
        all_goals rw [here]
        all_goals first | rfl | exact nofun
  refine ⟨_, after, _, copies, rfl, ⟨⟨grown, setting.root, ?_, ?_⟩, fun _ => .inl, made.listed,
    fun _ here => .inr (.inl here)⟩, ?_⟩
  · exact fun l here => Nat.lt_of_lt_of_le (setting.old l here) made.grows
  · rintro l here (known | copy | source)
    · exact setting.apart l here known
    · exact absurd (setting.old l here) (Nat.not_lt.mpr (made.fresh l copy).1)
    · rcases List.mem_map.mp source with ⟨s, at_, rfl⟩
      rcases isNew s at_ with ⟨_, low, _, _⟩
      exact absurd (setting.old _ here) (Nat.not_lt.mpr low)
  · have pairs : List.Forall₂ (fun c value => item after c = .attribute none (some value))
        copies values := by
      have both := made.copied
      unfold Copied at both
      rw [List.forall₂_iff_get] at both
      unfold HoldsValues at holds
      rw [List.forall₂_iff_get] at holds
      rw [List.forall₂_iff_get]
      refine ⟨both.1.trans holds.1, ?_⟩
      intro i small small'
      have copy := (both.2 i small (both.1 ▸ small)).1
      have source := holds.2 i (both.1 ▸ small) small'
      unfold item
      rw [copy.type, copy.name, copy.content, source.2.2]
      rfl
    clear grown isNew original holds made
    induction pairs with
    | nil => rfl
    | cons first _ inductionHypothesis =>
        rw [List.map_cons, List.map_cons, first, inductionHypothesis]

end Steps

theorem Meets.smaller {Num : Type} {env : Env Num} {inside region middle : NodeId → Prop}
    {result : Option (RValue Num × Heap)} {items : Option (List Item)}
    (meets : Meets env inside middle result items) (within : ∀ n, region n → middle n) :
    Meets env inside region result items := by
  cases items with
  | none => exact meets
  | some items =>
      rcases meets with ⟨value, after, grown, nodes, done, found, listed⟩
      exact ⟨value, after, grown, nodes, done, found.smaller within, listed⟩

/-- The attributes of members are members. -/
theorem Region.attributes_sourced {heap : Heap} {inside region : NodeId → Prop}
    (closed : Region heap inside region) {nodes : List NodeId} (inRegion : ∀ c ∈ nodes, region c)
    {lists : List (List NodeId)}
    (listing : (nodes.mapM fun c => siblings heap (heap.get c).attributes) = some lists) :
    ∀ s ∈ numbered lists.flatten, region s.1 := by
  intro s at_
  have inFlat := List.mem_map_of_mem (f := Prod.fst) at_
  rw [numbered_fst] at inFlat
  rcases List.mem_flatten.mp inFlat with ⟨attrs, inLists, here⟩
  rcases List.forall₂_iff_get.mp (mapM_eq_some_iff.mp listing) with ⟨length, all⟩
  rcases List.getElem_of_mem inLists with ⟨i, small, rfl⟩
  have listed := all i (length ▸ small) small
  have known := inRegion _ (List.get_mem nodes ⟨i, length ▸ small⟩)
  rcases closed.attributes_keep (Nat.le_refl _) (fun _ _ => rfl) known with
    ⟨⟨attrs, found, members⟩, _⟩
  rw [found] at listed
  cases listed
  exact members s.1 here

section AttributeSteps

variable {Num : Type} {env : Env Num} {heap : Heap} {inside region : NodeId → Prop}
  (setting : Setting env heap inside region)

include setting

/-- An attribute of the current node; the node-set is the new attribute itself. -/
theorem Setting.attributeLeaf {head : ExprNode} (attr : head.type = .attr) {current : NodeId} :
    Meets env inside region (attributeStep head ([] : List (Operand Num)) current heap)
      (stepItems head heap current) := by
  unfold stepItems attributeStep
  rw [attr]
  simp only
  cases xmlGetAttr heap head.name (heap.size + 1) current with
  | none => rfl
  | some value =>
      cases value with
      | none => exact ⟨.null, heap, region, [], rfl, setting.foundNone rfl, rfl⟩
      | some text =>
          rcases newAttribute_get heap text with ⟨extended, made⟩
          have small : heap.size < (newAttribute heap text).1.size := Nat.lt_succ_self _
          have kept : Region (newAttribute heap text).1 inside region :=
            setting.closed.keep extended.grows fun n known =>
              extended.same n (setting.closed.bound known)
          have grown : Region (newAttribute heap text).1 inside fun n => region n ∨ n = heap.size := by
            apply kept.add
            · rintro n rfl
              exact small
            · rintro n m rfl link
              rw [made] at link
              cases link
            · rintro n m rfl link
              rw [made] at link
              cases link
            · rintro n src rfl link
              rw [made] at link
              cases link
            · rintro n rfl _
              constructor
              all_goals rw [made]
              all_goals first | rfl | exact nofun
          refine ⟨_, _, _, [heap.size], rfl, ⟨⟨grown, setting.root, ?_, ?_⟩, fun _ => .inl, ?_, ?_⟩, ?_⟩
          · exact fun l here => Nat.lt_of_lt_of_le (setting.old l here) extended.grows
          · rintro l here (known | rfl)
            · exact setting.apart l here known
            · exact Nat.lt_irrefl _ (setting.old _ here)
          · apply siblings_of_chain
            · apply Chain.cons
              change Chain _ ((newAttribute heap text).1.get heap.size).next []
              rw [made]
              exact .nil
            · intro n at_
              rw [List.mem_singleton.mp at_]
              exact small
          · exact fun n at_ => .inr (List.mem_singleton.mp at_)
          · rw [List.map_cons, List.map_nil]
            unfold item
            rw [made]
            rfl

/-- An attribute of every member of a node-set. -/
theorem Setting.attributeOver {head : ExprNode} (attr : head.type = .attr) {nodes : List NodeId}
    (inRegion : ∀ c ∈ nodes, region c) :
    Meets env inside region
      ((attributesOf head.name heap none 0 nodes).map fun result =>
        ((.nodeset result.2 : RValue Num), result.1))
      ((nodes.mapM (stepItems head heap)).map List.flatten) := by
  have each : stepItems head heap = fun c => (xmlGetAttr heap head.name (heap.size + 1) c).map
      fun value => value.toList.map fun text => .attribute none (some text) := by
    funext c
    unfold stepItems
    rw [attr]
  rw [each, mapM_map]
  have collected := attributesOf_appended setting.closed head.name nodes inRegion (.refl heap)
    (t := none) nofun 0
  cases listing : nodes.mapM fun n => xmlGetAttr heap head.name (heap.size + 1) n with
  | none =>
      rw [listing] at collected
      simp only at collected
      rw [collected]
      rfl
  | some values =>
      rw [listing] at collected
      rcases collected with ⟨after, copies, sources, done, made, holds, _⟩
      rw [done]
      have flat : ∀ values : List (Option Bytes),
          (values.map fun value => value.toList.map fun text => Item.attribute none (some text)).flatten
            = (values.filterMap id).map fun value => Item.attribute none (some value) := by
        intro values
        induction values with
        | nil => rfl
        | cons value rest inductionHypothesis =>
            rw [List.map_cons, List.flatten_cons, inductionHypothesis]
            cases value <;> rfl
      simp only [Option.map_some]
      rw [flat]
      exact setting.attributes made holds

/-- All attributes of every member of a node-set. -/
theorem Setting.attributesOver {head : ExprNode} (attrAll : head.type = .attrAll)
    {nodes : List NodeId} (inRegion : ∀ c ∈ nodes, region c) :
    Meets env inside region
      ((xpathGetAttrs heap nodes).map fun result => ((.nodeset result.2 : RValue Num), result.1))
      ((nodes.mapM (stepItems head heap)).map List.flatten) := by
  have each : stepItems head heap = fun c =>
      (siblings heap (heap.get c).attributes).map (List.map (item heap)) := by
    funext c
    unfold stepItems
    rw [attrAll]
  rw [each, mapM_map]
  unfold xpathGetAttrs
  cases listing : nodes.mapM fun c => siblings heap (heap.get c).attributes with
  | none => rfl
  | some lists =>
      have sourced := setting.closed.attributes_sourced inRegion listing
      rcases setting.newSelection sourced with ⟨copies, start, made⟩
      have found := setting.meets made sourced
      have same : (numbered lists.flatten).map (fun s => item heap s.1) =
          (lists.map (List.map (item heap))).flatten := by
        rw [← List.map_flatten, ← numbered_fst lists.flatten, List.map_map, numbered_fst]
        rfl
      simp only [Option.bind_eq_bind, Option.bind_some, Option.map_some]
      rw [start, ← same]
      exact found

/-- All attributes of the current node, by way of a copy of it. -/
theorem Setting.attributesLeaf {head : ExprNode} (attrAll : head.type = .attrAll) {current : NodeId}
    (member : region current) :
    Meets env inside region (allAttributesStep ([] : List (Operand Num)) current heap)
      (stepItems head heap current) := by
  have copied : Appended env.locals heap (addToSelection heap none current 1).1 none [heap.size]
      [(current, 1)] := addToSelection_appended (setting.closed.bound member) nofun nofun
  have sourced : ∀ s ∈ [(current, 1)], region s.1 := by
    intro s at_
    rw [List.mem_singleton.mp at_]
    exact member
  have later := setting.appended copied sourced
  have kept : ∀ n, region n → (addToSelection heap none current 1).1.get n = heap.get n :=
    fun n known => copied.same n (setting.closed.bound known) nofun fun here =>
      setting.apart n here known
  have further := later.attributesOver attrAll (fun c at_ => .inr at_ : ∀ c ∈ [heap.size], _)
  have copy : CopyOf (addToSelection heap none current 1).1 current heap.size := by
    cases copied.copied with
    | cons first _ => exact first.1
  rcases setting.closed.attributes_keep copied.grows kept member with ⟨⟨attrs, listed, members⟩, same⟩
  have items : (List.mapM (stepItems head (addToSelection heap none current 1).1)
      [heap.size]).map List.flatten = stepItems head heap current := by
    unfold stepItems
    rw [attrAll]
    simp only [List.mapM_cons, List.mapM_nil]
    rw [copy.attributes, same, listed]
    simp only [Option.map_some, Option.bind_eq_bind, Option.bind_some, Option.pure_def,
      List.flatten_cons, List.flatten_nil, List.append_nil]
    apply congrArg some
    apply List.map_congr_left
    intro a at_
    exact setting.closed.item_keep copied.grows kept (members a at_)
  rw [items] at further
  have whole : allAttributesStep ([] : List (Operand Num)) current heap =
      (xpathGetAttrs (addToSelection heap none current 1).1 [heap.size]).map fun result =>
        ((.nodeset result.2 : RValue Num), result.1) := by
    change (xpathGetAttrs (addToSelection heap none current 1).1 [heap.size]).bind _ = _
    cases xpathGetAttrs (addToSelection heap none current 1).1 [heap.size] <;> rfl
  rw [whole]
  exact further.smaller fun _ => .inl

end AttributeSteps

/-! ## Whole expressions -/

theorem executeNode_axis {Num : Type} [Double Num] (env : Env Num) (run : Expr → Eval Num)
    {head : ExprNode} (axis : head.type.isAxis = true) (args : List (Operand Num)) :
    executeNode env run head args = xpathSelectCommon head args := by
  funext current heap
  unfold executeNode
  cases type : head.type
  all_goals first
    | rfl
    | rw [type] at axis
      cases axis

/-- The steps that look at the node-set before them. -/
def Follows (head : ExprNode) : Prop :=
  head.type.isAxis = true ∨ head.type = .attr ∨ head.type = .attrAll

theorem Step.follows {step : Step} (valid : step.Valid) (placed : step ≠ .text ∧ step ≠ .node) :
    Follows step.head := by
  have ofAxis : ∀ {axis : Bytes × ExprType}, axis ∈ axes →
      axis.2.isAxis = true ∨ axis.2 = .attr ∨ axis.2 = .attrAll := by decide
  cases step with
  | named | all | self | parent => exact .inl rfl
  | axis a n => exact ofAxis valid.1
  | axisAll a => exact ofAxis valid
  | attribute_ => exact .inr (.inl rfl)
  | attributeAll => exact .inr (.inr rfl)
  | text => exact absurd rfl placed.1
  | node => exact absurd rfl placed.2

section Expressions

variable {Num : Type} [Double Num] {env : Env Num} {depth : Nat} {heap : Heap}
  {inside region : NodeId → Prop} (setting : Setting env heap inside region) {current : NodeId}

include setting

/-- A step alone. -/
theorem Setting.stepLeaf {head : ExprNode} (follows : Follows head) (member : region current) :
    Meets env inside region (xpathExecuteScalar env depth (.leaf head) current heap)
      (stepItems head heap current) := by
  change Meets env inside region (executeNode env (keyEval env depth) head [] current heap) _
  rcases follows with axis | attr | attrAll
  · rw [executeNode_axis env _ axis]
    exact setting.axisLeaf axis member
  · have whole : executeNode env (keyEval env depth) head [] = attributeStep head [] := by
      unfold executeNode
      rw [attr]
    rw [whole]
    exact setting.attributeLeaf attr
  · have whole : executeNode env (keyEval env depth) head [] = allAttributesStep [] := by
      unfold executeNode
      rw [attrAll]
    rw [whole]
    exact setting.attributesLeaf attrAll member

omit setting in
/-- A step behind an expression. -/
theorem Found.stepOver {head : ExprNode} (follows : Follows head) {before : Expr}
    {value : RValue Num} {middle : Heap} {grown : NodeId → Prop} {nodes : List NodeId}
    (evaluated : xpathExecuteScalar env depth before current heap = some (value, middle))
    (some_ : before ≠ .null) (found : Found env middle inside region grown value nodes) :
    Meets env inside region (xpathExecuteScalar env depth (.node head before .null) current heap)
      ((nodes.mapM (stepItems head middle)).map List.flatten) := by
  cases before with
  | null => exact absurd rfl some_
  | node head' children next =>
      apply Meets.smaller _ found.old
      change Meets env inside grown (executeNode env (keyEval env depth) head
        (⟨head', xpathExecuteScalar env depth (.node head' children next)⟩ ::
          operandsAt env depth next) current heap) _
      have listed := found.listed
      -- a value that is no node-set gives an empty one, or NULL
      have none_ : ∀ value' : RValue Num, members value' middle = some [] → nodes = [] →
          Meets env inside grown (some (value', middle))
            ((nodes.mapM (stepItems head middle)).map List.flatten) := by
        rintro value' empty rfl
        exact ⟨value', middle, grown, [], rfl, found.setting.foundNone empty, rfl⟩
      rcases follows with axis | attr | attrAll
      · rw [executeNode_axis env _ axis]
        unfold xpathSelectCommon
        simp only
        rw [evaluated]
        simp only [Option.bind_eq_bind, Option.bind_some]
        cases value with
        | nodeset set =>
            have further := @Setting.axisOver Num env middle inside grown found.setting head axis nodes found.inRegion
            simp only
            rw [show siblings middle set = some nodes from listed, Option.bind_some]
            cases applied : xpathApplySelector
              (fun heap c => axisNodes head.type heap c head.kind) middle none nodes with
            | none =>
                rw [applied] at further
                exact further
            | some result =>
                rw [applied] at further
                exact further
        | null | bool | int | number | string =>
            exact none_ (.nodeset none) (siblings_of_chain .nil nofun) (Option.some.inj listed).symm
      · unfold executeNode attributeStep
        rw [attr]
        simp only
        rw [evaluated]
        simp only [Option.bind_eq_bind, Option.bind_some]
        cases value with
        | nodeset set =>
            have further := @Setting.attributeOver Num env middle inside grown found.setting head attr nodes found.inRegion
            simp only
            rw [show siblings middle set = some nodes from listed, Option.bind_some]
            cases collected : attributesOf head.name middle none 0 nodes with
            | none =>
                rw [collected] at further
                exact further
            | some result =>
                rw [collected] at further
                exact further
        | null | bool | int | number | string =>
            exact none_ .null rfl (Option.some.inj listed).symm
      · unfold executeNode allAttributesStep
        rw [attrAll]
        simp only
        rw [evaluated]
        simp only [Option.bind_eq_bind, Option.bind_some]
        cases value with
        | nodeset set =>
            have further := @Setting.attributesOver Num env middle inside grown found.setting head attrAll nodes
              found.inRegion
            simp only
            rw [show siblings middle set = some nodes from listed, Option.bind_some]
            cases collected : xpathGetAttrs middle nodes with
            | none =>
                rw [collected] at further
                exact further
            | some result =>
                rw [collected] at further
                exact further
        | null | bool | int | number | string =>
            exact none_ (.nodeset none) (siblings_of_chain .nil nofun) (Option.some.inj listed).symm

omit [Double Num] in
/-- The leaf below a first step: a copy of the node that the path begins at. -/
theorem Setting.start {node : NodeId} (member : region node) :
    Exists fun after => Exists fun copy =>
      (single node current heap : Option (RValue Num × Heap)) =
        some (.nodeset (some copy), after) ∧
      Appended env.locals heap after none [copy] [(node, 1)] := by
  have sourced : ∀ s ∈ [(node, 1)], region s.1 := by
    intro s at_
    rw [List.mem_singleton.mp at_]
    exact member
  rcases setting.newSelection sourced with ⟨copies, start, made⟩
  have one : Exists fun copy => copies = [copy] := List.length_eq_one_iff.mp made.copied.length
  rcases one with ⟨copy, rfl⟩
  refine ⟨_, copy, ?_, made⟩
  unfold single
  simp only
  rw [start]
  rfl

/-- A step to the children or descendants of the node that a path begins at. -/
theorem Setting.stepFrom {head leaf : ExprNode} (down : head.type = .select ∨ head.type = .descendant)
    {node : NodeId} (member : region node)
    (leafRun : xpathExecuteScalar env depth (.leaf leaf) current heap = single node current heap) :
    Meets env inside region
      (xpathExecuteScalar env depth (.node head (.leaf leaf) .null) current heap)
      (stepItems head heap node) := by
  rcases @Setting.start Num env heap inside region setting current node member with
    ⟨after, copy, begun, made⟩
  have sourced : ∀ s ∈ [(node, 1)], region s.1 := by
    intro s at_
    rw [List.mem_singleton.mp at_]
    exact member
  have found : Found env after inside region (fun n => region n ∨ n ∈ [copy])
      (.nodeset (some copy) : RValue Num) [copy] := setting.found made sourced
  have axis : head.type.isAxis = true := by
    rcases down with type | type <;> rw [type] <;> rfl
  have further := found.stepOver (.inl axis) (leafRun.trans begun) nofun
  have kept : ∀ n, region n → after.get n = heap.get n := fun n known =>
    made.same n (setting.closed.bound known) nofun fun here => setting.apart n here known
  have image : CopyOf after node copy := by
    cases made.copied with
    | cons first _ => exact first.1
  -- the copy has the children of the node
  have same : axisNodes head.type after copy head.kind = axisNodes head.type heap node head.kind := by
    rw [← setting.closed.axisNodes_keep made.grows kept member]
    unfold axisNodes
    rcases down with type | type <;> rw [type] <;> simp only [image.children]
  have items : ([copy].mapM (stepItems head after)).map List.flatten = stepItems head heap node := by
    rw [List.mapM_cons, List.mapM_nil, stepItems_axis axis, stepItems_axis axis, same]
    cases listed : axisNodes head.type heap node head.kind with
    | none => rfl
    | some sources =>
        simp only [Option.map_some, Option.bind_eq_bind, Option.bind_some, Option.pure_def,
          List.flatten_cons, List.flatten_nil, List.append_nil]
        apply congrArg some
        apply List.map_congr_left
        intro s at_
        exact setting.closed.item_keep made.grows kept
          (setting.closed.axisNodes_region member listed s at_)
  rw [items] at further
  exact further

/-- The node that the first step of a path is taken from. -/
def Step.startsAt (env : Env Num) (step : Step) (rooted : Bool) (current : NodeId) : NodeId :=
  if step.anchors && rooted then env.rootNode else current

/-- A path of one step. -/
theorem Setting.firstStep {step : Step} (valid : step.Valid)
    (placed : step ≠ .text ∧ step ≠ .node) (rooted : Bool) (member : region current) :
    Meets env inside region (xpathExecuteScalar env depth (step.first rooted) current heap)
      (stepItems step.head heap (step.startsAt env rooted current)) := by
  unfold Step.first Step.startsAt
  cases anchors : step.anchors with
  | false => exact setting.stepLeaf (step.follows valid placed) member
  | true =>
      have down : step.head.type = .select ∨ step.head.type = .descendant := by
        unfold Step.anchors at anchors
        rw [Bool.or_eq_true, decide_eq_true_eq, decide_eq_true_eq] at anchors
        exact anchors
      cases rooted with
      | false => exact setting.stepFrom down member rfl
      | true => exact setting.stepFrom down (setting.closed.document setting.root) rfl

end Expressions

/-! ## Paths stay inside of regions -/

section Paths

variable {Num : Type} [Double Num] {env : Env Num} {depth : Nat}

omit [Double Num] in
theorem Meets.found {inside region : NodeId → Prop} {result : Option (RValue Num × Heap)}
    {items : Option (List Item)} (meets : Meets env inside region result items) {value : RValue Num}
    {after : Heap} (done : result = some (value, after)) :
    Exists fun grown => Exists fun nodes => Found env after inside region grown value nodes := by
  cases items with
  | none => exact absurd (done.symm.trans meets) nofun
  | some items =>
      rcases meets with ⟨value', after', grown, nodes, done', found, _⟩
      rw [done] at done'
      cases done'
      exact ⟨grown, nodes, found⟩

/-- `text()` and `node()` look at the children of the current node, whatever
stands before them. -/
theorem stays_call {name : Bytes} (known : name = lit "text" ∨ name = lit "node")
    (before : Expr) :
    Stays env (xpathExecuteScalar env depth (.node { type := .call, name := some name } before .null)) := by
  constructor
  intro heap after inside region current value setting member evaluated
  have allocates :=
    (xpathExecuteScalar_framed env depth _ _ _ _ _ setting.old evaluated).allocates
  have children : ∀ test : XmlNode → Bool, xfChildren test current heap = some (value, after) →
      Exists fun grown => Exists fun nodes => Found env after inside region grown value nodes := by
    intro test done
    rcases setting.closed.siblings_children member with ⟨row, listed, inDocument⟩
    have sourced : ∀ s ∈ numbered (row.filter fun node => test (heap.get node)), region s.1 := by
      intro s at_
      have inRow := List.mem_map_of_mem (f := Prod.fst) at_
      rw [numbered_fst] at inRow
      exact setting.closed.document (inDocument s.1 (List.mem_filter.mp inRow).1)
    rcases setting.newSelection sourced with ⟨copies, start, made⟩
    unfold xfChildren at done
    rw [listed, Option.bind_eq_bind, Option.bind_some] at done
    simp only at done
    rw [start] at done
    cases done
    exact ⟨_, copies, setting.found made sourced⟩
  change xpathCallDispatcher env (keyEval env depth) name (operandsAt env depth before) current heap =
    some (value, after) at evaluated
  unfold xpathCallDispatcher at evaluated
  cases callback : env.perlFunctions name with
  | some callback =>
      rw [callback] at evaluated
      rcases Option.bind_eq_some_iff.mp evaluated with ⟨⟨values, middle⟩, _, evaluated⟩
      rcases Option.bind_eq_some_iff.mp evaluated with ⟨strings, _, done⟩
      cases done
      exact ⟨region, [], (setting.allocates allocates).foundNone rfl⟩
  | none =>
      rw [callback] at evaluated
      simp only at evaluated
      rcases known with rfl | rfl
      · rw [if_neg (by decide), if_pos rfl] at evaluated
        exact children _ evaluated
      · rw [if_neg (by decide), if_neg (by decide), if_pos rfl] at evaluated
        exact children _ evaluated

/-- What a filter does with the value before it. -/
def filterBehind (env : Env Num) (depth : Nat) (predicate : Expr) (result : RValue Num × Heap) :
    Option (RValue Num × Heap) :=
  match result.1 with
  | .nodeset nodeset => do
      let (heap, set) ← xpathFilter result.2 nodeset (operandsAt env depth predicate).head?
      some (.nodeset set, heap)
  | _ => some (.nodeset none, result.2)

theorem xpathExecuteScalar_filter (head : ExprNode) (children predicate : Expr) (current : NodeId)
    (heap : Heap) : xpathExecuteScalar env depth
      (.node { type := .filter } (.node head children predicate) .null) current heap =
    (xpathExecuteScalar env depth (.node head children .null) current heap).bind
      (filterBehind env depth predicate) := rfl

/-- The memory and the node-set behind a filter. -/
theorem filter_spec {heap middle after : Heap} {inside region grown : NodeId → Prop}
    {nodes : List NodeId} {set : Ptr} {value : RValue Num} {before predicate : Expr}
    {head : ExprNode} {children : Expr} (tree : before = .node head children .null)
    {current : NodeId} (evaluated : xpathExecuteScalar env depth before current heap =
      some (.nodeset set, middle))
    (found : Found env middle inside region grown (.nodeset set : RValue Num) nodes)
    (done : xpathExecuteScalar env depth
      (.node { type := .filter } (.node head children predicate) .null) current heap =
        some (value, after)) :
    Exists fun filtered => (∀ n ∈ filtered, grown n) ∧
      (filtered = nodes ∨ Exists fun first => set = some first ∧ (middle.get first).type = .empty ∧
        siblings middle (middle.get first).children = some filtered) ∧
      Exists fun copies => Exists fun flags =>
        value = .nodeset copies.head? ∧
        Appended env.locals middle after none copies (numbered (pick filtered flags)) ∧
        (filtered = [] ∨ Exists fun h => Exists fun c => Exists fun n => predicate = .node h c n ∧
          Tested env.locals none ⟨h, xpathExecuteScalar env depth (.node h c n)⟩ middle filtered
            flags) := by
  subst tree
  rw [xpathExecuteScalar_filter, evaluated, Option.bind_some] at done
  rcases Option.bind_eq_some_iff.mp done with ⟨⟨last, result⟩, filtering, done⟩
  cases done
  have listed : siblings middle set = some nodes := found.listed
  cases set with
  | none =>
      cases filtering
      have empty : nodes = [] := by
        rw [show siblings middle none = some [] from siblings_of_chain .nil nofun] at listed
        exact (Option.some.inj listed).symm
      exact ⟨[], nofun, .inl empty.symm, [], [], rfl, .nil _ _ _, .inl rfl⟩
  | some first =>
      unfold xpathFilter at filtering
      rcases Option.bind_eq_some_iff.mp filtering with ⟨filtered, begun, filtering⟩
      rcases Option.bind_eq_some_iff.mp filtering with ⟨operand, isOperand, filtering⟩
      have chain := (follow_eq_some_iff.mp listed).1
      have firstMember : first ∈ nodes := by
        have start := chain.start_eq
        exact List.mem_of_mem_head? start.symm
      have inGrown : ∀ n ∈ filtered, grown n := by
        split at begun
        · rcases found.setting.closed.siblings_children (found.inRegion first firstMember) with
            ⟨row, below, inDocument⟩
          rw [below] at begun
          cases begun
          exact fun n at_ => found.setting.closed.document (inDocument n at_)
        · rw [listed] at begun
          cases begun
          exact found.inRegion
      cases predicate with
      | null => cases isOperand
      | node h c n =>
          cases isOperand
          have framed : Framed env.locals (xpathExecuteScalar env depth (.node h c n)) :=
            xpathExecuteScalar_framed env depth _
          have apart : ∀ p, (none : Ptr) = some p → env.locals ≠ some p ∧ p ∉ filtered := nofun
          rcases @filterNodes_appended Num _ env.locals ⟨h, xpathExecuteScalar env depth (.node h c n)⟩
            framed filtered middle _ none _ 0 found.setting.old nofun apart
            (fun n at_ => ⟨found.setting.closed.bound (inGrown n at_), fun here =>
              found.setting.apart n here (inGrown n at_)⟩) filtering with
            ⟨copies, flags, start, tested, made⟩
          refine ⟨filtered, inGrown, ?_, copies, flags, congrArg _ start, made, .inr ?_⟩
          · by_cases empty : (middle.get first).type = .empty
            · rw [if_pos empty] at begun
              exact .inr ⟨first, rfl, empty, begun⟩
            · rw [if_neg empty, listed] at begun
              exact .inl (Option.some.inj begun).symm
          · exact ⟨h, c, n, rfl, tested⟩

theorem stays_filter {before predicate filtered : Expr}
    (stays : Stays env (xpathExecuteScalar env depth before))
    (built : filterStep before predicate = some filtered)
    (alone : Exists fun head => Exists fun children => before = .node head children .null) :
    Stays env (xpathExecuteScalar env depth filtered) := by
  constructor
  intro heap after inside region current value setting member evaluated
  rcases alone with ⟨head, children, rfl⟩
  cases built
  have whole := evaluated
  rw [xpathExecuteScalar_filter] at evaluated
  rcases Option.bind_eq_some_iff.mp evaluated with ⟨⟨first, middle⟩, begun, evaluated⟩
  rcases stays.found setting member begun with ⟨grown, nodes, found⟩
  cases first with
  | nodeset set =>
      rcases filter_spec rfl begun found whole with
        ⟨filtered, inGrown, _, copies, flags, rfl, made, _⟩
      have sourced : ∀ s ∈ numbered (pick filtered flags), grown s.1 := by
        intro s at_
        have picked := List.mem_map_of_mem (f := Prod.fst) at_
        rw [numbered_fst] at picked
        exact inGrown s.1 (pick_subset filtered flags picked)
      exact ⟨_, copies, (found.setting.found made sourced).smaller found.old⟩
  | null | bool | int | number | string =>
      cases evaluated
      have none_ : members (.nodeset none : RValue Num) middle = some [] :=
        siblings_of_chain .nil nofun
      exact ⟨grown, [], (found.setting.foundNone none_).smaller found.old⟩

end Paths

/-- The tree of a path stands alone. -/
theorem Path.alone {text : Bytes} {tree : Expr} (path : Path text tree) :
    Exists fun head => Exists fun children => tree = .node head children .null := by
  cases path with
  | first step _ rooted =>
      unfold Step.first
      split
      · exact ⟨_, _, rfl⟩
      · exact ⟨_, _, rfl⟩
  | filter _ _ built =>
      unfold filterStep at built
      rcases Option.map_eq_some_iff.mp built with ⟨operands, _, rfl⟩
      exact ⟨_, _, rfl⟩
  | firstDeep | firstDeepAll | step | deep | deepAll => exact ⟨_, _, rfl⟩

theorem Path.ne_nil {text : Bytes} {tree : Expr} (path : Path text tree) : text ≠ [] := by
  cases path with
  | first step valid _ => exact List.append_ne_nil_of_right_ne_nil _ (Step.spelling_ne_nil valid)
  | firstDeep | firstDeepAll => exact List.cons_ne_nil _ _
  | step path | deep path =>
      rw [List.append_assoc]
      exact List.append_ne_nil_of_right_ne_nil _ (List.cons_ne_nil _ _)
  | deepAll => exact List.append_ne_nil_of_right_ne_nil _ (List.cons_ne_nil _ _)
  | filter => exact List.append_ne_nil_of_left_ne_nil (List.append_ne_nil_of_right_ne_nil _ (List.cons_ne_nil _ _)) _

/-- A step behind an expression that does not return does not either. -/
theorem stepOver_none {Num : Type} [Double Num] {env : Env Num} {depth : Nat} {head : ExprNode}
    (follows : Follows head) {before : Expr} (some_ : before ≠ .null) {current : NodeId} {heap : Heap}
    (stuck : xpathExecuteScalar env depth before current heap = none) :
    xpathExecuteScalar env depth (.node head before .null) current heap = none := by
  cases before with
  | null => exact absurd rfl some_
  | node head' children next =>
      change executeNode env (keyEval env depth) head
        (⟨head', xpathExecuteScalar env depth (.node head' children next)⟩ ::
          operandsAt env depth next) current heap = none
      rcases follows with axis | attr | attrAll
      · rw [executeNode_axis env _ axis]
        unfold xpathSelectCommon
        simp only
        rw [stuck]
        rfl
      · unfold executeNode attributeStep
        rw [attr]
        simp only
        rw [stuck]
        rfl
      · unfold executeNode allAttributesStep
        rw [attrAll]
        simp only
        rw [stuck]
        rfl

/-- The root alone. -/
theorem Setting.root_meets {Num : Type} [Double Num] {env : Env Num} {depth : Nat} {heap : Heap}
    {inside region : NodeId → Prop} (setting : Setting env heap inside region) (current : NodeId) :
    Meets env inside region (xpathExecuteScalar env depth (.leaf { type := .root }) current heap)
      (some [item heap env.rootNode]) := by
  have document := setting.closed.document setting.root
  rcases @Setting.start Num env heap inside region setting current env.rootNode document with
    ⟨after, copy, begun, made⟩
  rw [show xpathExecuteScalar env depth (.leaf { type := .root }) current heap = _ from begun]
  apply setting.meets made
  intro s at_
  rw [List.mem_singleton.mp at_]
  exact document

theorem stays_root {Num : Type} [Double Num] {env : Env Num} {depth : Nat} :
    Stays env (xpathExecuteScalar env depth (.leaf { type := .root })) := by
  constructor
  intro heap after inside region current value setting _ evaluated
  exact (setting.root_meets current).found evaluated

/-- A location path stays inside of the region in which it is evaluated. -/
theorem Path.stays {Num : Type} [Double Num] (env : Env Num) (depth : Nat) {text : Bytes}
    {tree : Expr} (path : Path text tree) : Stays env (xpathExecuteScalar env depth tree) := by
  have onward : ∀ {head : ExprNode} {before : Expr}, Follows head → before ≠ .null →
      Stays env (xpathExecuteScalar env depth before) →
      Stays env (xpathExecuteScalar env depth (.node head before .null)) := by
    intro head before follows some_ stays
    constructor
    intro heap after inside region current value setting member evaluated
    cases begun : xpathExecuteScalar env depth before current heap with
    | none => exact absurd ((stepOver_none follows some_ begun).symm.trans evaluated) nofun
    | some result =>
        rcases stays.found setting member begun with ⟨grown, nodes, found⟩
        exact (found.stepOver follows begun some_).found evaluated
  have deeper : ∀ {before : Expr}, before ≠ .null →
      Stays env (xpathExecuteScalar env depth before) →
      Stays env (xpathExecuteScalar env depth (descendantStep before)) := fun some_ stays =>
    onward (.inl rfl) some_ stays
  have attach : ∀ {step : Step} {before : Expr}, step.Valid → before ≠ .null →
      Stays env (xpathExecuteScalar env depth before) →
      Stays env (xpathExecuteScalar env depth (step.attach before)) := by
    intro step before valid some_ stays
    by_cases call : step = .text ∨ step = .node
    · rcases call with rfl | rfl
      · exact stays_call (.inl rfl) before
      · exact stays_call (.inr rfl) before
    · rw [not_or] at call
      exact onward (step.follows valid call) some_ stays
  induction path with
  | first step valid rooted =>
      by_cases call : step = .text ∨ step = .node
      · rcases call with rfl | rfl
        · exact stays_call (.inl rfl) .null
        · exact stays_call (.inr rfl) .null
      · rw [not_or] at call
        constructor
        intro heap after inside region current value setting member evaluated
        exact (setting.firstStep valid call rooted member).found evaluated
  | firstDeep step valid _ => exact attach valid nofun (deeper nofun stays_root)
  | firstDeepAll => exact deeper nofun stays_root
  | step path step valid inductionHypothesis =>
      rcases path.alone with ⟨_, _, rfl⟩
      exact attach valid nofun inductionHypothesis
  | deep path step valid _ inductionHypothesis =>
      rcases path.alone with ⟨_, _, rfl⟩
      exact attach valid nofun (deeper nofun inductionHypothesis)
  | deepAll path inductionHypothesis =>
      rcases path.alone with ⟨_, _, rfl⟩
      exact deeper nofun inductionHypothesis
  | filter path _ built inductionHypothesis =>
      exact stays_filter inductionHypothesis built path.alone

end TurboXSL
