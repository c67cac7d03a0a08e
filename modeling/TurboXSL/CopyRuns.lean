import TurboXSL.VerbatimCopies

namespace TurboXSL

open Library Output

/-!
# What copying yields

A run of `copy_node_to_result_rec` that evaluates nothing leaves the source as
it is and puts a copy behind the children of the place it is called for.  Such
a run exists, and the copy is the same tree, exactly where no string of the
source means anything to `xml_process_string`.
-/

section Strings

variable {Num : Type} [Double Num] {env : Env Num} {depth : Nat}

/-- Without evaluation the loop does nothing to the memory. -/
theorem processLoop_keeps {evaluate : Bytes → Heap → Option (Bytes × Heap)} {fuel : Nat}
    {s res : Bytes} {heap after : Heap}
    (done : processLoop evaluate fuel s heap = some (res, [], after)) : after = heap := by
  induction fuel generalizing s res heap with
  | zero =>
      cases s with
      | nil =>
          cases done
          rfl
      | cons c s => cases done
  | succ fuel inductionHypothesis =>
      cases s with
      | nil =>
          cases done
          rfl
      | cons c s =>
          unfold processLoop at done
          split at done
          · split at done
            · rcases Option.bind_eq_some_iff.mp done with ⟨⟨res', ev, last⟩, later, done⟩
              cases done
              exact inductionHypothesis later
            · rcases Option.bind_eq_some_iff.mp done with ⟨⟨r, middle⟩, _, done⟩
              dsimp only at done
              split at done
              · cases done
              · rcases Option.bind_eq_some_iff.mp done with ⟨⟨res', ev, last⟩, _, done⟩
                cases done
          · dsimp only at done
            rcases Option.bind_eq_some_iff.mp done with ⟨⟨res', ev, last⟩, later, done⟩
            cases done
            exact inductionHypothesis later

theorem xmlProcessString_keeps {context : NodeId} {string content : Option Bytes}
    {heap after : Heap}
    (done : xmlProcessString env depth context string heap = some (content, [], after)) :
    after = heap := by
  unfold xmlProcessString at done
  cases string with
  | none =>
      cases done
      rfl
  | some s =>
      dsimp only at done
      split at done
      · cases done
        rfl
      · rcases Option.bind_eq_some_iff.mp done with ⟨⟨res, ev, last⟩, later, done⟩
        cases done
        exact processLoop_keeps later

end Strings

/-! ## Attributes -/

/-- A node has got new attributes in front of its `old` ones. -/
structure Adorned (before after : Heap) (r : NodeId) (made old : List NodeId) : Prop where
  grows : before.size ≤ after.size
  same : ∀ i < before.size, i ≠ r → after.get i = before.get i
  owner : after.get r = { before.get r with attributes := (made ++ old).head? }
  chain : Siblings after (made ++ old).head? (made ++ old)
  fresh : ∀ n ∈ made, before.size ≤ n ∧ n < after.size

section Attributes

variable {Num : Type} [Double Num] {env : Env Num} {depth : Nat} {context r : NodeId}
  {heap middle after : Heap} {old : List NodeId}

/-- An attribute list in front of which more has been put. -/
theorem Adorned.trans {first later : List NodeId} (one : Adorned heap middle r first old)
    (two : Adorned middle after r later (first ++ old)) : Adorned heap after r (later ++ first) old where
  grows := Nat.le_trans one.grows two.grows
  same := by
    intro i small other
    rw [two.same i (Nat.lt_of_lt_of_le small one.grows) other]
    exact one.same i small other
  owner := by
    rw [two.owner, one.owner, List.append_assoc]
  chain := by
    rw [List.append_assoc]
    exact two.chain
  fresh := by
    intro n member
    rcases List.mem_append.mp member with new | earlier
    · exact ⟨Nat.le_trans one.grows (two.fresh n new).1, (two.fresh n new).2⟩
    · exact ⟨(one.fresh n earlier).1, Nat.lt_of_lt_of_le (one.fresh n earlier).2 two.grows⟩

/-- The content with which an attribute is copied. -/
def copiedContent (env : Env Num) (depth : Nat) (context : NodeId) (source : XmlNode)
    (heap : Heap) : Option (Option Bytes × List Bytes × Heap) :=
  if source.flags = xmlFlagNoescape then source.content.map fun content => (some content, [], heap)
  else xmlProcessString env depth context source.content heap

theorem copiedContent_spec {a : NodeId} {content : Option Bytes}
    (done : copiedContent env depth context (heap.get a) middle = some (content, [], after)) :
    after = middle ∧ (attributeCell heap a).CopiedTo ⟨(heap.get a).name, content, 0⟩ := by
  unfold copiedContent at done
  split at done
  next flagged =>
    rcases Option.map_eq_some_iff.mp done with ⟨s, has, same⟩
    cases same
    exact ⟨rfl, rfl, .inl ⟨.inl ⟨⟨s, has⟩, flagged⟩, has.symm⟩⟩
  next unflagged =>
    refine ⟨xmlProcessString_keeps done, rfl, ?_⟩
    cases has : (heap.get a).content with
    | none =>
        rw [has] at done
        cases done
        refine .inl ⟨.inr ⟨unflagged, fun s some_ => ?_⟩, has.symm⟩
        exact absurd (some_.symm.trans has) (Option.some_ne_none s)
    | some s =>
        rw [has] at done
        rcases xmlProcessString_spec done with ⟨plain, rfl⟩ | ⟨braced, shorter⟩
        · refine .inl ⟨.inr ⟨unflagged, fun t same => ?_⟩, has.symm⟩
          cases has.symm.trans same
          exact plain
        · refine .inr ⟨?_, ?_⟩
          · rintro (⟨_, flagged⟩ | ⟨_, plain⟩)
            · exact unflagged flagged
            · exact braced (plain s has)
          · change _ < ((heap.get a).content.getD []).length
            rw [has]
            exact shorter

variable {a : NodeId} (small : r < heap.size) (source : a < heap.size) (notOwner : a ≠ r)
  (chain : Siblings heap (heap.get r).attributes old) (olds : ∀ n ∈ old, n < heap.size ∧ n ≠ r)

/-- The memory in which an attribute of `r` has been made with this content. -/
def withAttribute (heap : Heap) (r a : NodeId) (content : Option Bytes) : Heap :=
  let named := (xmlNewNode heap none .attribute).1.modify heap.size fun cell =>
    { cell with name := (heap.get a).name }
  (named.modify heap.size fun cell =>
    { cell with content := content, next := (named.get r).attributes }).modify r fun cell =>
      { cell with attributes := some heap.size }

include small in
theorem withAttribute_get_new (content : Option Bytes) :
    (withAttribute heap r a content).get heap.size =
      { type := .attribute, uid := some heap.size, name := (heap.get a).name, content := content,
        next := (heap.get r).attributes } := by
  have apart : heap.size ≠ r := (Nat.ne_of_lt small).symm
  unfold withAttribute
  dsimp only
  rw [Arena.modify_get_of_ne _ _ apart, Arena.modify_get_same, Arena.modify_get_same,
    Arena.modify_get_of_ne _ _ apart.symm]
  unfold xmlNewNode
  rw [Arena.alloc_get_same, Arena.alloc_get_of_lt _ _ small]

include small in
theorem withAttribute_get_owner (content : Option Bytes) :
    (withAttribute heap r a content).get r =
      { heap.get r with attributes := some heap.size } := by
  have apart : r ≠ heap.size := Nat.ne_of_lt small
  unfold withAttribute
  dsimp only
  rw [Arena.modify_get_same, Arena.modify_get_of_ne _ _ apart, Arena.modify_get_of_ne _ _ apart]
  unfold xmlNewNode
  rw [Arena.alloc_get_of_lt _ _ small]

theorem withAttribute_get_old (content : Option Bytes) {i : NodeId} (inside : i < heap.size)
    (other : i ≠ r) : (withAttribute heap r a content).get i = heap.get i := by
  have apart : i ≠ heap.size := Nat.ne_of_lt inside
  unfold withAttribute
  dsimp only
  rw [Arena.modify_get_of_ne _ _ other, Arena.modify_get_of_ne _ _ apart,
    Arena.modify_get_of_ne _ _ apart]
  unfold xmlNewNode
  rw [Arena.alloc_get_of_lt _ _ inside]

include small chain olds in
theorem withAttribute_adorned (content : Option Bytes) :
    Adorned heap (withAttribute heap r a content) r [heap.size] old where
  grows := Nat.le_succ _
  same := fun i inside other => withAttribute_get_old content inside other
  owner := withAttribute_get_owner small content
  chain := by
    refine .cons heap.size old ?_
    rw [withAttribute_get_new small]
    refine chain.congr fun n member => ?_
    rw [withAttribute_get_old content (olds n member).1 (olds n member).2]
  fresh := by
    intro n member
    rw [List.mem_singleton.mp member]
    exact ⟨Nat.le_refl _, Nat.lt_succ_self _⟩

include source in
/-- One round of the loop, by the content that it gives to the copy. -/
theorem copyAttribute_eq : copyAttribute env depth context r a heap =
    (copiedContent env depth context (heap.get a) ((xmlNewNode heap none .attribute).1.modify
        heap.size fun cell => { cell with name := (heap.get a).name })).bind
      fun (content, evaluated, middle) => some (evaluated, (middle.modify heap.size fun cell =>
        { cell with content := content, next := (middle.get r).attributes }).modify r fun cell =>
          { cell with attributes := some heap.size }) := by
  have name : (heap.alloc { type := .attribute, name := none, uid := some heap.size }).get a =
      heap.get a := Arena.alloc_get_of_lt _ _ source
  have here : ((heap.alloc { type := .attribute, name := none, uid := some heap.size }).modify
      heap.size fun cell => { cell with name := (heap.get a).name }).get a = heap.get a :=
    (Arena.modify_get_of_ne _ _ (Nat.ne_of_lt source)).trans name
  unfold copyAttribute copiedContent xmlNewNode
  dsimp only
  rw [name, here]
  split <;> rfl

include source in
theorem copyAttribute_spec
    (done : copyAttribute env depth context r a heap = some ([], after)) :
    Exists fun content => after = withAttribute heap r a content ∧
      (attributeCell heap a).CopiedTo ⟨(heap.get a).name, content, 0⟩ := by
  rw [copyAttribute_eq source] at done
  rcases Option.bind_eq_some_iff.mp done with ⟨⟨content, evaluated, middle⟩, copied, done⟩
  cases done
  rcases copiedContent_spec copied with ⟨rfl, isCopied⟩
  exact ⟨content, rfl, isCopied⟩

include source in
/-- An attribute that means nothing to `xml_process_string` is copied. -/
theorem copyAttribute_verbatim (verbatim : (attributeCell heap a).Verbatim) :
    copyAttribute env depth context r a heap =
      some ([], withAttribute heap r a (heap.get a).content) := by
  rw [copyAttribute_eq source]
  unfold copiedContent withAttribute
  rcases verbatim with ⟨⟨s, content⟩, flagged⟩ | ⟨unflagged, plain⟩
  · have flagged : (heap.get a).flags = xmlFlagNoescape := flagged
    have content : (heap.get a).content = some s := content
    rw [if_pos flagged, content]
    rfl
  · have unflagged : (heap.get a).flags ≠ xmlFlagNoescape := unflagged
    rw [if_neg unflagged]
    cases has : (heap.get a).content with
    | none => rfl
    | some s =>
        rw [xmlProcessString_verbatim (plain s has)]
        rfl

end Attributes

section AttributeLists

variable {Num : Type} [Double Num] {env : Env Num} {depth : Nat} {context r : NodeId}

theorem attributeCell_congr {heap other : Heap} {attributes : List NodeId}
    (same : ∀ a ∈ attributes, other.get a = heap.get a) :
    attributes.map (attributeCell other) = attributes.map (attributeCell heap) := by
  refine List.map_congr_left fun a member => ?_
  unfold attributeCell
  rw [same a member]

/-- The loop over attributes, which reverses their order. -/
theorem copyAttributes_spec {attributes old : List NodeId} {heap after : Heap}
    (small : r < heap.size) (sources : ∀ a ∈ attributes, a < heap.size ∧ a ≠ r)
    (chain : Siblings heap (heap.get r).attributes old) (olds : ∀ n ∈ old, n < heap.size ∧ n ≠ r)
    (done : copyAttributes env depth context r attributes heap = some ([], after)) :
    Exists fun made => Adorned heap after r made old ∧
      List.Forall₂ AttributeCell.CopiedTo (attributes.map (attributeCell heap))
        (made.reverse.map (attributeCell after)) := by
  induction attributes generalizing heap old with
  | nil =>
      cases done
      refine ⟨[], ⟨Nat.le_refl _, fun _ _ _ => rfl, ?_, ?_, nofun⟩, .nil⟩
      · rw [List.nil_append, ← chain.start_eq]
      · rw [List.nil_append, ← chain.start_eq]
        exact chain
  | cons a rest inductionHypothesis =>
      rcases Option.bind_eq_some_iff.mp done with ⟨⟨first, middle⟩, one, done⟩
      rcases Option.bind_eq_some_iff.mp done with ⟨⟨others, last⟩, more, done⟩
      cases others with
      | cons text texts =>
          exfalso
          have joined := congrArg Prod.fst (Option.some.inj done)
          exact List.append_ne_nil_of_right_ne_nil first (List.cons_ne_nil text texts) joined
      | nil =>
          have joined := congrArg Prod.fst (Option.some.inj done)
          have same := congrArg Prod.snd (Option.some.inj done)
          dsimp only at joined same
          rw [List.append_nil] at joined
          subst joined same
          have source := (sources a List.mem_cons_self).1
          rcases copyAttribute_spec source one with ⟨content, rfl, copied⟩
          have adorned := withAttribute_adorned (a := a) small chain olds content
          have smaller : r < (withAttribute heap r a content).size :=
            Nat.lt_of_lt_of_le small adorned.grows
          have kept : ∀ n ∈ rest, (withAttribute heap r a content).get n = heap.get n :=
            fun n member => adorned.same n (sources n (List.mem_cons_of_mem _ member)).1
              (sources n (List.mem_cons_of_mem _ member)).2
          have start : Siblings (withAttribute heap r a content)
              ((withAttribute heap r a content).get r).attributes ([heap.size] ++ old) := by
            rw [adorned.owner]
            exact adorned.chain
          have inside : ∀ n ∈ [heap.size] ++ old,
              n < (withAttribute heap r a content).size ∧ n ≠ r := by
            intro n member
            rcases List.mem_cons.mp member with rfl | before
            · exact ⟨Nat.lt_succ_self _, Nat.ne_of_gt small⟩
            · exact ⟨Nat.lt_of_lt_of_le (olds n before).1 adorned.grows, (olds n before).2⟩
          rcases inductionHypothesis smaller
              (fun n member => ⟨Nat.lt_of_lt_of_le
                (sources n (List.mem_cons_of_mem _ member)).1 adorned.grows,
                (sources n (List.mem_cons_of_mem _ member)).2⟩) start inside more with
            ⟨made, later, copies⟩
          refine ⟨made ++ [heap.size], adorned.trans later, ?_⟩
          rw [List.reverse_append, List.reverse_singleton, List.map_append, List.map_cons,
            List.map_cons, List.map_nil]
          refine .cons ?_ ?_
          · have new : last.get heap.size = (withAttribute heap r a content).get heap.size :=
              later.same heap.size (Nat.lt_succ_self _) (Nat.ne_of_gt small)
            unfold attributeCell at copied ⊢
            rw [new, withAttribute_get_new small]
            exact copied
          · rwa [attributeCell_congr kept] at copies

/-- Attributes that mean nothing are copied without an evaluation. -/
theorem copyAttributes_verbatim {attributes : List NodeId} {heap : Heap}
    (small : r < heap.size) (sources : ∀ a ∈ attributes, a < heap.size ∧ a ≠ r)
    (verbatim : ∀ a ∈ attributes, (attributeCell heap a).Verbatim) :
    Exists fun after => copyAttributes env depth context r attributes heap = some ([], after) := by
  induction attributes generalizing heap with
  | nil => exact ⟨heap, rfl⟩
  | cons a rest inductionHypothesis =>
      have one := @copyAttribute_verbatim _ _ env depth context r heap a
        (sources a List.mem_cons_self).1 (verbatim a List.mem_cons_self)
      have kept : ∀ n ∈ rest, (withAttribute heap r a (heap.get a).content).get n = heap.get n :=
        fun n member => withAttribute_get_old _ (sources n (List.mem_cons_of_mem _ member)).1
          (sources n (List.mem_cons_of_mem _ member)).2
      have later : ∀ n ∈ rest,
          (attributeCell (withAttribute heap r a (heap.get a).content) n).Verbatim := by
        intro n member
        have same := verbatim n (List.mem_cons_of_mem _ member)
        unfold attributeCell at same ⊢
        rwa [kept n member]
      rcases @inductionHypothesis (withAttribute heap r a (heap.get a).content)
          (Nat.lt_succ_of_lt small)
          (fun n member => ⟨Nat.lt_succ_of_lt (sources n (List.mem_cons_of_mem _ member)).1,
            (sources n (List.mem_cons_of_mem _ member)).2⟩) later with ⟨after, more⟩
      refine ⟨after, ?_⟩
      rw [copyAttributes, one]
      change (copyAttributes env depth context r rest _).bind _ = _
      rw [more]
      rfl

end AttributeLists

/-! ## One node -/

section Nodes

variable {Num : Type} [Double Num] {env : Env Num} {depth : Nat} {context parent src : NodeId}
  {row ids made : List NodeId} {locals : Ptr} {heap middle after : Heap}

/-- Changes inside of new children do not matter to the row they stand in. -/
theorem Grafted.inside (grafted : Grafted locals heap middle parent row made)
    (site : Site locals heap parent row ids) (grows : middle.size ≤ after.size)
    (same : ∀ i < heap.size, locals ≠ some i → after.get i = middle.get i)
    (links : ∀ n ∈ made, (after.get n).next = (middle.get n).next) :
    Grafted locals heap after parent row made where
  grows := Nat.le_trans grafted.grows grows
  same := by
    intro i small other notParent notLast
    rw [same i small other]
    exact grafted.same i small other notParent notLast
  owner := by
    rw [same parent site.place.1 site.place.2.1]
    exact grafted.owner
  last := by
    intro l ends
    have here := site.row l (List.mem_of_getLast? ends)
    rw [same l here.1 here.2.1]
    exact grafted.last l ends
  chain := by
    refine grafted.chain.congr fun n member => ?_
    rcases List.mem_append.mp member with old | new
    · have here := site.row n old
      rw [same n here.1 here.2.1]
    · exact links n new
  fresh := fun n member =>
    ⟨(grafted.fresh n member).1, Nat.lt_of_lt_of_le (grafted.fresh n member).2 grows⟩

/-- The copy of a node stands behind the others, without children. -/
structure NodeCopied (env : Env Num) (heap after : Heap) (parent src : NodeId)
    (row attributes made : List NodeId) : Prop where
  grafted : Grafted env.locals heap after parent row [heap.size]
  childless : (after.get heap.size).children = none
  chain : Siblings after (after.get heap.size).attributes made
  fresh : ∀ a ∈ made, heap.size < a ∧ a < after.size
  copied : (nodeCell heap src attributes).CopiedTo (nodeCell after heap.size made)

/-- `copy_node_to_result`, by the memory in which the new node has its name. -/
theorem copyNodeToResult_eq (site : Site env.locals heap parent row ids) (here : src ∈ ids) :
    Exists fun named => Grafted env.locals heap named parent row [heap.size] ∧
      named.size = heap.size + 1 ∧
      named.get heap.size = { type := (heap.get src).type, uid := some heap.size,
                              parent := some parent, prev := row.getLast?,
                              name := (heap.get src).name, flags := (heap.get src).flags } ∧
      copyNodeToResult env depth context parent src heap =
        match (heap.get src).type with
        | .element => (siblings named (heap.get src).attributes).bind fun attributes =>
            (copyAttributes env depth context heap.size attributes named).bind
              fun (evaluated, after) => some (heap.size, evaluated, after)
        | .text => (heap.get src).content.bind fun content =>
            some (heap.size, [], named.modify heap.size fun cell =>
              { cell with content := some (untilNul content) })
        | _ => some (heap.size, [], named) := by
  rcases xmlAppendChild_grafted site (heap.get src).type with ⟨first, appended, grafted, size, new⟩
  have source : first.get src = heap.get src := grafted.source site here
  have apart : src ≠ heap.size := Nat.ne_of_lt (site.source src here).1
  refine ⟨first.modify heap.size fun cell =>
    { cell with name := (heap.get src).name, flags := (heap.get src).flags }, ?_, size, ?_, ?_⟩
  · refine grafted.inside site (Nat.le_refl _) (fun i small _ => ?_) fun n member => ?_
    · exact Arena.modify_get_of_ne _ _ (Nat.ne_of_lt small)
    · rw [List.mem_singleton.mp member, Arena.modify_get_same]
  · rw [Arena.modify_get_same, new]
  · unfold copyNodeToResult
    rw [appended]
    simp only [Option.bind_eq_bind, Option.bind_some, source, Arena.modify_get_of_ne _ _ apart] <;>
      rfl

variable {attributes : List NodeId} (site : Site env.locals heap parent row ids) (here : src ∈ ids)
  (attrs : Siblings heap (heap.get src).attributes attributes)
  (inside : ∀ a ∈ attributes, a ∈ ids)

include site here attrs inside

omit here [Double Num] in
/-- The attributes of the source after the new node has been put in its place. -/
theorem Grafted.source_attributes (grafted : Grafted env.locals heap middle parent row made) :
    siblings middle (heap.get src).attributes = some attributes ∧
      attributes.map (attributeCell middle) = attributes.map (attributeCell heap) := by
  have kept : ∀ a ∈ attributes, middle.get a = heap.get a :=
    fun a member => grafted.source site (inside a member)
  refine ⟨siblings_of_chain (attrs.congr fun a member => ?_) fun a member => ?_,
    attributeCell_congr kept⟩
  · rw [kept a member]
  · exact Nat.lt_of_lt_of_le (site.source a (inside a member)).1 grafted.grows

theorem copyNodeToResult_spec {r : NodeId}
    (done : copyNodeToResult env depth context parent src heap = some (r, [], after)) :
    r = heap.size ∧ Exists fun made => NodeCopied env heap after parent src row attributes made := by
  rcases @copyNodeToResult_eq _ _ env depth context _ _ _ _ _ site here with
    ⟨named, grafted, size, new, whole⟩
  rw [whole] at done
  have found := grafted.source_attributes site attrs inside
  have small : heap.size < named.size := size ▸ Nat.lt_succ_self _
  have bare (notElement : (heap.get src).type ≠ .element)
      (notText : (heap.get src).type ≠ .text) :
      NodeCopied env heap named parent src row attributes [] := by
    refine ⟨grafted, by rw [new], by rw [new]; exact .nil, nofun, ?_⟩
    refine ⟨by rw [nodeCell, new]; rfl, by rw [nodeCell, new]; rfl, ?_, ?_⟩
    · exact fun text => absurd text notText
    · exact fun element => absurd element notElement
  cases type : (heap.get src).type
  case element =>
    rw [type] at done
    dsimp only at done
    rw [found.1, Option.bind_some] at done
    rcases Option.bind_eq_some_iff.mp done with ⟨⟨evaluated, last⟩, ran, done⟩
    cases done
    have start : Siblings named (named.get heap.size).attributes [] := by
      rw [new]
      exact .nil
    rcases copyAttributes_spec small (fun a member =>
        ⟨Nat.lt_of_lt_of_le (site.source a (inside a member)).1 grafted.grows,
          Nat.ne_of_lt (site.source a (inside a member)).1⟩) start nofun ran with
      ⟨made, adorned, copies⟩
    have owner := adorned.owner
    rw [List.append_nil] at owner
    refine ⟨rfl, made, ?_, ?_, ?_, ?_, ?_⟩
    · refine grafted.inside site adorned.grows (fun i before _ => ?_) fun n member => ?_
      · exact adorned.same i (Nat.lt_trans before small) (Nat.ne_of_lt before)
      · rw [List.mem_singleton.mp member, owner]
    · rw [owner, new]
    · have chain := adorned.chain
      rw [List.append_nil] at chain
      rw [owner]
      exact chain
    · exact fun a member => ⟨Nat.lt_of_lt_of_le small (adorned.fresh a member).1,
        (adorned.fresh a member).2⟩
    · refine ⟨?_, ?_, ?_, ?_⟩
      · unfold nodeCell
        rw [owner, new]
      · unfold nodeCell
        rw [owner, new]
      · exact fun text => nomatch type.symm.trans text
      · intro _
        have copies := found.2 ▸ copies
        rwa [List.map_reverse] at copies
  case text =>
    rw [type] at done
    rcases Option.bind_eq_some_iff.mp done with ⟨content, has, done⟩
    cases done
    have cell : (named.modify heap.size fun cell =>
        { cell with content := some (untilNul content) }).get heap.size =
          { named.get heap.size with content := some (untilNul content) } :=
      Arena.modify_get_same _ _ _
    refine ⟨rfl, [], ?_, ?_, ?_, nofun, ?_⟩
    · refine grafted.inside site (Nat.le_refl _) (fun i before _ => ?_) fun n member => ?_
      · exact Arena.modify_get_of_ne _ _ (Nat.ne_of_lt before)
      · rw [List.mem_singleton.mp member, cell]
    · rw [cell, new]
    · rw [cell, new]
      exact .nil
    · refine ⟨?_, ?_, ?_, ?_⟩
      · unfold nodeCell
        rw [cell, new]
      · unfold nodeCell
        rw [cell, new]
      · intro _
        refine ⟨content, has, ?_⟩
        unfold nodeCell
        rw [cell]
      · exact fun element => nomatch type.symm.trans element
  all_goals
    rw [type] at done
    cases done
    exact ⟨rfl, [], bare (by rw [type]; exact nofun) (by rw [type]; exact nofun)⟩

/-- What means nothing to `xml_process_string` is copied without an evaluation. -/
theorem copyNodeToResult_verbatim
    (verbatim : (heap.get src).type = .element → ∀ a ∈ attributes, (attributeCell heap a).Verbatim)
    (written : (heap.get src).type = .text → (heap.get src).content ≠ none) :
    Exists fun after =>
      copyNodeToResult env depth context parent src heap = some (heap.size, [], after) := by
  rcases @copyNodeToResult_eq _ _ env depth context _ _ _ _ _ site here with
    ⟨named, grafted, size, new, whole⟩
  rw [whole]
  have found := grafted.source_attributes site attrs inside
  cases type : (heap.get src).type
  case element =>
    have sources : ∀ a ∈ attributes, a < named.size ∧ a ≠ heap.size := fun a member =>
      ⟨Nat.lt_of_lt_of_le (site.source a (inside a member)).1 grafted.grows,
        Nat.ne_of_lt (site.source a (inside a member)).1⟩
    have cells : ∀ a ∈ attributes, (attributeCell named a).Verbatim := by
      intro a member
      have same := List.map_inj_left.mp found.2 a member
      rw [same]
      exact verbatim type a member
    rcases @copyAttributes_verbatim _ _ env depth context heap.size _ _
        (size ▸ Nat.lt_succ_self _) sources cells with ⟨after, ran⟩
    refine ⟨after, ?_⟩
    dsimp only
    rw [found.1, Option.bind_some, ran]
    rfl
  case text =>
    rcases Option.ne_none_iff_exists'.mp (written type) with ⟨content, has⟩
    dsimp only
    rw [has]
    exact ⟨_, rfl⟩
  all_goals exact ⟨named, rfl⟩

end Nodes

/-! ## Whole trees -/

namespace Fragment

/-- A node that is no attribute. -/
def NoAttributes : Fragment → Prop
  | .nil => True
  | .node cell children next => cell.type ≠ .attribute ∧ children.NoAttributes ∧ next.NoAttributes

/-- How many nodes there are. -/
def size : Fragment → Nat
  | .nil => 0
  | .node _ children next => children.size + next.size + 1

/-- No string of the trees means anything to `xml_process_string`: the
attributes are marked as no templates, or have neither a `{` nor a `}}`, and no
string has a NUL. -/
def Verbatim : Fragment → Prop
  | .nil => True
  | .node cell children next =>
      (cell.type = .element → ∀ a ∈ cell.attributes, a.Verbatim) ∧
        (cell.type = .text → Exists fun s => cell.content = some s ∧ 0 ∉ s) ∧
        children.Verbatim ∧ next.Verbatim

/-- The same names, nesting and order, the same texts, and the same attributes
in some order. -/
inductive Same : Fragment → Fragment → Prop where
  | nil : Same .nil .nil
  | node {src r : NodeCell} {children children' next next' : Fragment} (type : r.type = src.type)
      (name : r.name = src.name) (text : src.type = .text → r.content = src.content)
      (attributes : src.type = .element →
        (r.attributes.map fun a => (a.name, a.content)).Perm
          (src.attributes.map fun a => (a.name, a.content)))
      (inner : Same children children') (tail : Same next next') :
      Same (.node src children next) (.node r children' next')

end Fragment

section Trees

variable {Num : Type} [Double Num] {env : Env Num} {depth : Nat} {context parent : NodeId}
  {row made later ids : List NodeId} {locals : Ptr} {heap middle after : Heap}

omit [Double Num] in
theorem Grafted.refl (site : Site locals heap parent row ids) :
    Grafted locals heap heap parent row [] where
  grows := Nat.le_refl _
  same := fun _ _ _ _ _ => rfl
  owner := by
    rw [List.append_nil, ← site.chain.start_eq]
  last := by
    intro l ends
    have stop := site.chain.ends ends
    cases cell : heap.get l
    rw [cell] at stop
    cases stop
    rfl
  chain := by
    rw [List.append_nil, ← site.chain.start_eq]
    exact site.chain
  fresh := nofun

omit [Double Num] in
/-- New children behind new children. -/
theorem Grafted.trans (one : Grafted locals heap middle parent row made)
    (site : Site locals heap parent row ids) (some_ : made ≠ [])
    (two : Grafted locals middle after parent (row ++ made) later) :
    Grafted locals heap after parent row (made ++ later) where
  grows := Nat.le_trans one.grows two.grows
  same := by
    intro i small other notParent notLast
    rw [two.same i (Nat.lt_of_lt_of_le small one.grows) other notParent ?_]
    · exact one.same i small other notParent notLast
    · intro last
      rw [List.getLast?_append_of_ne_nil _ some_] at last
      exact absurd (one.fresh i (List.mem_of_getLast? last)).1 (Nat.not_le.mpr small)
  owner := by
    rw [two.owner, one.owner, List.append_assoc]
  last := by
    intro l ends
    have here := site.row l (List.mem_of_getLast? ends)
    rw [two.same l (Nat.lt_of_lt_of_le here.1 one.grows) here.2.1 here.2.2.1 ?_, one.last l ends,
      List.head?_append_of_ne_nil _ some_]
    intro last
    rw [List.getLast?_append_of_ne_nil _ some_] at last
    exact absurd (one.fresh l (List.mem_of_getLast? last)).1 (Nat.not_le.mpr here.1)
  chain := by
    rw [← List.append_assoc]
    exact two.chain
  fresh := by
    intro n member
    rcases List.mem_append.mp member with earlier | new
    · exact ⟨(one.fresh n earlier).1, Nat.lt_of_lt_of_le (one.fresh n earlier).2 two.grows⟩
    · exact ⟨Nat.le_trans one.grows (two.fresh n new).1, (two.fresh n new).2⟩

/-- A node that is no attribute, with what is below it and behind it. -/
theorem copyNodesToResult_node {src : NodeId} (notAttribute : (heap.get src).type ≠ .attribute)
    (fuel : Nat) :
    copyNodesToResult env depth context (fuel + 1) parent (some src) heap =
      (copyNodeToResult env depth context parent src heap).bind fun (r, own, placed) =>
        (copyNodesToResult env depth context fuel r (placed.get src).children placed).bind
          fun (below, inner) =>
            (copyNodesToResult env depth context fuel parent (inner.get src).next inner).bind
              fun (behind, after) => some (own ++ below ++ behind, after) := by
  rw [copyNodesToResult, if_neg notAttribute]
  simp only [Option.bind_eq_bind, Option.bind_some]

/-! ### The parts of one round -/

section Round

variable {src : NodeId} {attributes below behind attrsMade childrenMade idsBelow idsBehind : List NodeId}
  {placed inner : Heap} {children next : Fragment}
  (site : Site env.locals heap parent row ids)
  (node : NodeCopied env heap placed parent src row attributes attrsMade)

include site node

omit [Double Num]

/-- Where the copies of the children go. -/
theorem NodeCopied.inner_site (part : below ⊆ ids) : Site env.locals placed heap.size [] below where
  old := fun l here => Nat.lt_of_lt_of_le (site.old l here) node.grafted.grows
  place := by
    refine ⟨(node.grafted.fresh heap.size (List.mem_singleton_self _)).2, ?_, ?_⟩
    · exact fun same => Nat.lt_irrefl _ (site.old _ same)
    · exact fun member => Nat.lt_irrefl _ (site.source _ (part member)).1
  chain := by
    rw [node.childless]
    exact .nil
  row := nofun
  source := fun n member =>
    ⟨Nat.lt_of_lt_of_le (site.source n (part member)).1 node.grafted.grows,
      (site.source n (part member)).2⟩

/-- The copies of the children leave the row of the copy as it is. -/
theorem NodeCopied.grafted_inner
    (inside : Grafted env.locals placed inner heap.size [] childrenMade) :
    Grafted env.locals heap inner parent row [heap.size] := by
  refine node.grafted.inside site inside.grows (fun i small other => ?_) fun n member => ?_
  · exact inside.same i (Nat.lt_of_lt_of_le small node.grafted.grows) other
      (Nat.ne_of_lt small) nofun
  · rw [List.mem_singleton.mp member, inside.owner]

/-- The copies of a node, of its children and of its siblings, together. -/
theorem NodeCopied.laid (inside : Grafted env.locals placed inner heap.size [] childrenMade)
    (laidBelow : Laid inner childrenMade.head? children idsBelow)
    (freshBelow : ∀ n ∈ idsBelow, placed.size ≤ n ∧ n < inner.size)
    (onward : Grafted env.locals inner after parent (row ++ [heap.size]) later)
    (laidBehind : Laid after later.head? next idsBehind) :
    Laid after (some heap.size) (.node (nodeCell placed heap.size attrsMade) children next)
      (heap.size :: attrsMade ++ idsBelow ++ idsBehind) := by
  have placedSmall := (node.grafted.fresh heap.size (List.mem_singleton_self _)).2
  have last : (row ++ [heap.size]).getLast? = some heap.size := List.getLast?_concat
  -- New nodes but the copy itself are out of reach of what follows.
  have kept : ∀ n, heap.size < n → n < inner.size → after.get n = inner.get n := by
    intro n new small
    refine onward.same n small (fun same => ?_) (fun same => ?_) fun same => ?_
    · exact absurd (site.old n same) (Nat.not_lt.mpr (Nat.le_of_lt new))
    · exact absurd site.place.1 (Nat.not_lt.mpr (same ▸ Nat.le_of_lt new))
    · exact Nat.ne_of_gt new (Option.some.inj (same.symm.trans last))
  have early : ∀ n, heap.size < n → n < placed.size → inner.get n = placed.get n := by
    intro n new small
    refine inside.same n small (fun same => ?_) (Nat.ne_of_gt new) nofun
    exact absurd (site.old n same) (Nat.not_lt.mpr (Nat.le_of_lt new))
  have attrsKept : ∀ a ∈ attrsMade, after.get a = placed.get a := by
    intro a member
    have new := node.fresh a member
    rw [kept a new.1 (Nat.lt_of_lt_of_le new.2 inside.grows), early a new.1 new.2]
  have cell : after.get heap.size = { placed.get heap.size with
      children := childrenMade.head?, next := later.head? } := by
    rw [onward.last heap.size last, inside.owner]
    rfl
  have same : nodeCell placed heap.size attrsMade = nodeCell after heap.size attrsMade := by
    unfold nodeCell
    rw [attributeCell_congr attrsKept, cell]
  rw [same]
  refine .node ?_ ?_ ?_
  · rw [cell]
    exact node.chain.congr fun a member => by rw [attrsKept a member]
  · rw [cell]
    refine laidBelow.congr fun n member => ?_
    exact kept n (Nat.lt_of_lt_of_le placedSmall (freshBelow n member).1) (freshBelow n member).2
  · rw [cell]
    exact laidBehind

end Round

/-- What a run yields that evaluates nothing. -/
theorem copyNodesToResult_spec {fragment : Fragment} {p : Ptr} {fuel : Nat}
    (reads : Laid heap p fragment ids) (nodes : fragment.NoAttributes)
    (site : Site env.locals heap parent row ids)
    (done : copyNodesToResult env depth context fuel parent p heap = some ([], after)) :
    Exists fun made => Exists fun copy => Exists fun copied =>
      Grafted env.locals heap after parent row made ∧ Laid after made.head? copy copied ∧
      (∀ n ∈ copied, heap.size ≤ n ∧ n < after.size) ∧ fragment.CopiedTo copy := by
  induction fragment generalizing heap p ids parent row fuel after with
  | nil =>
      cases reads
      cases fuel <;> cases done <;>
        exact ⟨[], .nil, [], .refl site, .nil, nofun, .nil⟩
  | node cell children next innerHypothesis tailHypothesis =>
      cases reads with
      | @node src attributes below behind _ _ chain inner tail =>
          cases fuel with
          | zero => cases done
          | succ fuel =>
              have here : src ∈ src :: attributes ++ below ++ behind :=
                List.mem_append_left _ (List.mem_append_left _ List.mem_cons_self)
              have attrsInside : ∀ a ∈ attributes, a ∈ src :: attributes ++ below ++ behind :=
                fun a member => List.mem_append_left _
                  (List.mem_append_left _ (List.mem_cons_of_mem _ member))
              have belowInside : below ⊆ src :: attributes ++ below ++ behind :=
                fun n member => List.mem_append_left _ (List.mem_append_right _ member)
              have behindInside : behind ⊆ src :: attributes ++ below ++ behind :=
                fun n member => List.mem_append_right _ member
              rw [copyNodesToResult_node nodes.1] at done
              rcases Option.bind_eq_some_iff.mp done with ⟨⟨r, own, placed⟩, one, done⟩
              rcases Option.bind_eq_some_iff.mp done with ⟨⟨evaluated, filled⟩, two, done⟩
              rcases Option.bind_eq_some_iff.mp done with ⟨⟨others, last⟩, three, done⟩
              have texts := congrArg Prod.fst (Option.some.inj done)
              have same := congrArg Prod.snd (Option.some.inj done)
              dsimp only at texts same
              rw [List.append_eq_nil_iff, List.append_eq_nil_iff] at texts
              rcases texts with ⟨⟨rfl, rfl⟩, rfl⟩
              subst same
              rcases copyNodeToResult_spec site here chain attrsInside one with
                ⟨rfl, attrsMade, copied⟩
              rw [copied.grafted.source site here] at two
              have belowReads := inner.congr fun n member =>
                copied.grafted.source site (belowInside member)
              rcases innerHypothesis belowReads nodes.2.1 (copied.inner_site site belowInside) two with
                ⟨childrenMade, childrenCopy, idsBelow, inside, laidBelow, freshBelow, childrenCopied⟩
              have grafted := copied.grafted_inner site inside
              rw [grafted.source site here] at three
              have behindReads := tail.congr fun n member =>
                grafted.source site (behindInside member)
              rcases tailHypothesis behindReads nodes.2.2 (grafted.site site behindInside) three with
                ⟨later, nextCopy, idsBehind, onward, laidBehind, freshBehind, nextCopied⟩
              refine ⟨[heap.size] ++ later, .node (nodeCell placed heap.size attrsMade)
                childrenCopy nextCopy, heap.size :: attrsMade ++ idsBelow ++ idsBehind,
                grafted.trans site (List.cons_ne_nil _ _) onward,
                copied.laid site inside laidBelow freshBelow onward laidBehind, ?_,
                .node copied.copied childrenCopied nextCopied⟩
              have small := (copied.grafted.fresh heap.size (List.mem_singleton_self _)).2
              have grow := Nat.le_trans inside.grows onward.grows
              intro n member
              rcases List.mem_append.mp member with member | new
              · rcases List.mem_append.mp member with member | new
                · rcases List.mem_cons.mp member with rfl | new
                  · exact ⟨Nat.le_refl _, Nat.lt_of_lt_of_le small grow⟩
                  · exact ⟨Nat.le_of_lt (copied.fresh n new).1,
                      Nat.lt_of_lt_of_le (copied.fresh n new).2 grow⟩
                · exact ⟨Nat.le_trans copied.grafted.grows (freshBelow n new).1,
                    Nat.lt_of_lt_of_le (freshBelow n new).2 onward.grows⟩
              · exact ⟨Nat.le_trans grafted.grows (freshBehind n new).1, (freshBehind n new).2⟩

/-- Trees of which nothing means anything are copied without an evaluation. -/
theorem copyNodesToResult_verbatim {fragment : Fragment} {p : Ptr} {fuel : Nat}
    (reads : Laid heap p fragment ids) (nodes : fragment.NoAttributes)
    (site : Site env.locals heap parent row ids) (verbatim : fragment.Verbatim)
    (enough : fragment.size ≤ fuel) :
    Exists fun after =>
      copyNodesToResult env depth context fuel parent p heap = some ([], after) := by
  induction fragment generalizing heap p ids parent row fuel with
  | nil =>
      cases reads
      cases fuel <;> exact ⟨heap, rfl⟩
  | node cell children next innerHypothesis tailHypothesis =>
      cases reads with
      | @node src attributes below behind _ _ chain inner tail =>
          cases fuel with
          | zero => cases enough
          | succ fuel =>
              have here : src ∈ src :: attributes ++ below ++ behind :=
                List.mem_append_left _ (List.mem_append_left _ List.mem_cons_self)
              have attrsInside : ∀ a ∈ attributes, a ∈ src :: attributes ++ below ++ behind :=
                fun a member => List.mem_append_left _
                  (List.mem_append_left _ (List.mem_cons_of_mem _ member))
              have belowInside : below ⊆ src :: attributes ++ below ++ behind :=
                fun n member => List.mem_append_left _ (List.mem_append_right _ member)
              have behindInside : behind ⊆ src :: attributes ++ below ++ behind :=
                fun n member => List.mem_append_right _ member
              have short := Nat.le_of_succ_le_succ enough
              have written : (heap.get src).type = .text → (heap.get src).content ≠ none := by
                intro text
                rcases verbatim.2.1 text with ⟨s, has, _⟩
                have has : (heap.get src).content = some s := has
                rw [has]
                exact Option.some_ne_none s
              rcases @copyNodeToResult_verbatim _ _ env depth context _ _ _ _ _ _ site here chain
                  attrsInside (fun element a member => verbatim.1 element _
                    (List.mem_map_of_mem member)) written with ⟨placed, one⟩
              rcases copyNodeToResult_spec site here chain attrsInside one with
                ⟨_, attrsMade, copied⟩
              have belowReads := inner.congr fun n member =>
                copied.grafted.source site (belowInside member)
              rcases @innerHypothesis _ _ _ _ _ fuel belowReads nodes.2.1
                  (copied.inner_site site belowInside) verbatim.2.2.1
                  (Nat.le_trans (Nat.le_add_right _ _) short) with ⟨filled, two⟩
              rcases copyNodesToResult_spec belowReads nodes.2.1
                  (copied.inner_site site belowInside) two with
                ⟨childrenMade, childrenCopy, idsBelow, inside, _, _, _⟩
              have grafted := copied.grafted_inner site inside
              have behindReads := tail.congr fun n member =>
                grafted.source site (behindInside member)
              rcases @tailHypothesis _ _ _ _ _ fuel behindReads nodes.2.2
                  (grafted.site site behindInside) verbatim.2.2.2
                  (Nat.le_trans (Nat.le_add_left _ _) short) with ⟨after, three⟩
              refine ⟨after, ?_⟩
              rw [copyNodesToResult_node nodes.1, one, Option.bind_some]
              dsimp only
              rw [copied.grafted.source site here, two, Option.bind_some]
              dsimp only
              rw [grafted.source site here, three]
              rfl

end Trees

/-! ## Which copies are verbatim -/

/-- How long the contents are. -/
def contentLength (attributes : List AttributeCell) : Nat :=
  (attributes.map fun a => (a.content.getD []).length).sum

theorem contentLength_perm {attributes others : List AttributeCell}
    (same : (others.map fun a => (a.name, a.content)).Perm
      (attributes.map fun a => (a.name, a.content))) :
    contentLength others = contentLength attributes := by
  have lengths := same.map fun pair => (pair.2.getD []).length
  rw [List.map_map, List.map_map] at lengths
  exact lengths.sum_nat

/-- A copy that is not verbatim has lost something. -/
theorem contentLength_copied {attributes copies : List AttributeCell}
    (copied : List.Forall₂ AttributeCell.CopiedTo attributes copies) :
    contentLength copies ≤ contentLength attributes ∧
      (contentLength copies = contentLength attributes → ∀ a ∈ attributes, a.Verbatim) := by
  induction copied with
  | nil => exact ⟨Nat.le_refl _, nofun⟩
  | @cons a t attributes copies one _ inductionHypothesis =>
      unfold contentLength at inductionHypothesis ⊢
      rw [List.map_cons, List.map_cons, List.sum_cons, List.sum_cons]
      rcases one.content with ⟨verbatim, same⟩ | ⟨_, shorter⟩
      · rw [same]
        refine ⟨Nat.add_le_add_left inductionHypothesis.1 _, fun equal b member => ?_⟩
        rcases List.mem_cons.mp member with rfl | later
        · exact verbatim
        · exact inductionHypothesis.2 (Nat.add_left_cancel equal) b later
      · have less := Nat.add_lt_add_of_lt_of_le shorter inductionHypothesis.1
        exact ⟨Nat.le_of_lt less, fun equal => absurd equal (Nat.ne_of_lt less)⟩

theorem pairs_of_verbatim {attributes copies : List AttributeCell}
    (copied : List.Forall₂ AttributeCell.CopiedTo attributes copies)
    (verbatim : ∀ a ∈ attributes, a.Verbatim) :
    (copies.map fun a => (a.name, a.content)) = attributes.map fun a => (a.name, a.content) := by
  induction copied with
  | nil => rfl
  | @cons a t attributes copies one _ inductionHypothesis =>
      have content : t.content = a.content := by
        rcases one.content with ⟨_, same⟩ | ⟨braced, _⟩
        · exact same
        · exact absurd (verbatim a List.mem_cons_self) braced
      rw [List.map_cons, List.map_cons, one.name, content,
        inductionHypothesis fun b member => verbatim b (List.mem_cons_of_mem _ member)]

/-- Nodes of a document: elements and texts. -/
def Fragment.Plain : Fragment → Prop
  | .nil => True
  | .node cell children next =>
      (cell.type = .element ∨ cell.type = .text) ∧ children.Plain ∧ next.Plain

theorem Fragment.Plain.noAttributes {fragment : Fragment} (plain : fragment.Plain) :
    fragment.NoAttributes := by
  induction fragment with
  | nil => trivial
  | node cell children next innerHypothesis tailHypothesis =>
      refine ⟨?_, innerHypothesis plain.2.1, tailHypothesis plain.2.2⟩
      rcases plain.1 with type | type
      · rw [type]
        exact nofun
      · rw [type]
        exact nofun

/-- What is copied is the same exactly where nothing in it means anything. -/
theorem Fragment.CopiedTo.same_iff {fragment copy : Fragment} (copied : fragment.CopiedTo copy) :
    fragment.Same copy ↔ fragment.Verbatim := by
  induction copied with
  | nil => exact ⟨fun _ => trivial, fun _ => .nil⟩
  | @node src r children children' next next' here _ _ innerHypothesis tailHypothesis =>
      constructor
      · intro same
        cases same with
        | node type name text attributes inner tail =>
            refine ⟨fun element => ?_, fun isText => ?_, innerHypothesis.mp inner,
              tailHypothesis.mp tail⟩
            · have copies := here.attributes element
              have equal := contentLength_perm (attributes element)
              have reversed : contentLength r.attributes.reverse = contentLength r.attributes := by
                refine contentLength_perm ((List.reverse_perm _).map _)
              exact (contentLength_copied copies).2 (reversed.trans equal)
            · rcases here.text isText with ⟨s, content, copy⟩
              refine ⟨s, content, fun cut => ?_⟩
              have equal := copy.symm.trans ((text isText).trans content)
              exact absurd (congrArg List.length (Option.some.inj equal))
                (Nat.ne_of_lt (untilNul_length_lt cut))
      · intro verbatim
        refine .node here.type here.name (fun isText => ?_) (fun element => ?_)
          (innerHypothesis.mpr verbatim.2.2.1) (tailHypothesis.mpr verbatim.2.2.2)
        · rcases here.text isText with ⟨s, content, copy⟩
          rcases verbatim.2.1 isText with ⟨s', content', whole⟩
          cases content.symm.trans content'
          rw [copy, content, untilNul_eq_self whole]
        · have pairs := pairs_of_verbatim (here.attributes element) (verbatim.1 element)
          rw [← pairs]
          exact (List.reverse_perm _).symm.map _

/-- `copy_node_to_result_rec` puts the same trees behind the children of its
place, and evaluates nothing, exactly where no attribute and no text means
anything to `xml_process_string`. -/
theorem copies_verbatim_iff {Num : Type} [Double Num] (env : Env Num) (depth : Nat)
    (context : NodeId) {heap : Heap} {parent : NodeId} {row ids : List NodeId} {p : Ptr}
    {fragment : Fragment} {fuel : Nat} (reads : Laid heap p fragment ids) (plain : fragment.Plain)
    (site : Site env.locals heap parent row ids) (enough : fragment.size ≤ fuel) :
    (Exists fun after => Exists fun made => Exists fun copy => Exists fun copied =>
      copyNodesToResult env depth context fuel parent p heap = some ([], after) ∧
      Grafted env.locals heap after parent row made ∧ Laid after made.head? copy copied ∧
      fragment.Same copy) ↔ fragment.Verbatim := by
  constructor
  · rintro ⟨after, made, copy, copied, done, grafted, laid, same⟩
    rcases copyNodesToResult_spec reads plain.noAttributes site done with
      ⟨made', copy', copied', grafted', laid', _, isCopy⟩
    have children := congrArg XmlNode.children (grafted.owner.symm.trans grafted'.owner)
    dsimp only at children
    have chain := grafted.chain
    rw [children] at chain
    cases List.append_cancel_left (chain.unique grafted'.chain)
    cases laid.unique laid'
    exact isCopy.same_iff.mp same
  · intro verbatim
    rcases @copyNodesToResult_verbatim _ _ env depth context _ _ _ _ _ _ _ reads plain.noAttributes
      site verbatim enough with ⟨after, done⟩
    rcases copyNodesToResult_spec reads plain.noAttributes site done with
      ⟨made, copy, copied, grafted, laid, _, isCopy⟩
    exact ⟨after, made, copy, copied, done, grafted, laid, isCopy.same_iff.mpr verbatim⟩

/-- A result, the element `a` of a document with an attribute `x`, and the node
of the local variables. -/
def attributeText (value : Bytes) : Heap := .ofList [
  { type := .empty, name := some xslSRoot },
  { type := .element, name := some (lit "a"), attributes := some 2 },
  { type := .attribute, name := some (lit "x"), content := some value },
  { type := .empty }]

def localsAtThree : Env Int := { Env.bare Int 0 with locals := some 3 }

/-- The value of an attribute of the document is evaluated. -/
theorem document_is_evaluated :
    (copyNodesToResult localsAtThree 3 1 1 0 (some 1) (attributeText (lit "{1+1}"))).map
        (fun run => (run.1, (run.2.get 4).attributes, (run.2.get 5).name, (run.2.get 5).content)) =
      some ([lit "1+1"], some 5, some (lit "x"), some (lit "2")) := by decide

theorem attributeText_laid (value : Bytes) : Laid (attributeText value) (some 1)
    (.node (nodeCell (attributeText value) 1 [2]) .nil .nil) [1, 2] := by
  have chain : Siblings (attributeText value) (some 2) [2] := .cons 2 [] .nil
  exact @Laid.node (attributeText value) 1 [2] [] [] .nil .nil chain .nil .nil

theorem attributeText_site (value : Bytes) :
    Site localsAtThree.locals (attributeText value) 0 [] [1, 2] where
  old := by
    intro l here
    cases here
    exact Nat.lt_succ_self 3
  place := ⟨Nat.zero_lt_succ 3, by decide, by decide⟩
  chain := .nil
  row := nofun
  source := by
    intro n member
    simp only [List.mem_cons, List.not_mem_nil, or_false] at member
    rcases member with rfl | rfl
    · exact ⟨Nat.succ_lt_succ (Nat.zero_lt_succ 2), by decide⟩
    · exact ⟨Nat.lt_succ_of_lt (Nat.lt_succ_self 2), by decide⟩

theorem copies_verbatim_iff_attribute :
    (Exists fun after => Exists fun made => Exists fun copy => Exists fun copied =>
      copyNodesToResult localsAtThree 3 1 1 0 (some 1) (attributeText (lit "v")) =
        some ([], after) ∧
      Grafted localsAtThree.locals (attributeText (lit "v")) after 0 [] made ∧
      Laid after made.head? copy copied ∧
      Fragment.Same (.node (nodeCell (attributeText (lit "v")) 1 [2]) .nil .nil) copy) ↔
    Fragment.Verbatim (.node (nodeCell (attributeText (lit "v")) 1 [2]) .nil .nil) :=
  copies_verbatim_iff localsAtThree 3 1 (attributeText_laid _) ⟨.inl rfl, trivial, trivial⟩
    (attributeText_site _) (by decide)

end TurboXSL
