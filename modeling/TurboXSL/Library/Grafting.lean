import TurboXSL.Library.LinkedForest

namespace Library

/-!
# Trees hung below the nodes of a forest

`Attached` is what hanging a node behind the children of another one does to
the links.  Where the node is the root of a tree that stands alone, the forest
grows by that tree; where siblings stand behind the node, they are left with
the owner they had.
-/

/-- The node stands below no one. -/
def Links.cut (links : Links) (node : Nat) : Links :=
  { links with parent := fun n => if n = node then none else links.parent n }

theorem Links.cut_parent (links : Links) {node n : Nat} (different : n ≠ node) :
    (links.cut node).parent n = links.parent n := if_neg different

theorem Links.cut_parent_same (links : Links) (node : Nat) :
    (links.cut node).parent node = none := if_pos rfl

/-- `other` are the links with `node` hung behind `row`, the children of `owner`. -/
structure Attached (links other : Links) (owner node : Nat) (row : List Nat) : Prop where
  up : other.parent node = some owner
  parent : ∀ {n}, n ≠ node → other.parent n = links.parent n
  back : other.prev node = row.getLast?
  prev : ∀ {n}, n ≠ node → other.prev n = links.prev n
  link : ∀ {last}, row.getLast? = some last → other.next last = some node
  next : ∀ {n}, row.getLast? ≠ some n → other.next n = links.next n
  first : row = [] → other.children owner = some node
  children : ∀ {n}, (row = [] → n ≠ owner) → other.children n = links.children n

namespace LinkedForest

variable {links : Links} {size : Nat} {inside part : Nat → Prop}

/-- A node without links. -/
theorem single {node : Nat} (bound : node < size) (children : links.children node = none)
    (next : links.next node = none) (prev : links.prev node = none)
    (parent : links.parent node = none) : LinkedForest links size (· = node) where
  bound := by
    intro n same
    exact same ▸ bound
  row := by
    intro n same
    refine ⟨[], ?_, nofun⟩
    unfold Children
    rw [same, children]
    exact .nil _
  up := by
    intro n owner same link
    rw [same, parent] at link
    cases link
  behind := by
    intro n later same link
    rw [same, next] at link
    cases link
  before := by
    intro n earlier same link
    rw [same, prev] at link
    cases link

/-- Two forests side by side. -/
theorem union (left : LinkedForest links size inside) (right : LinkedForest links size part) :
    LinkedForest links size (fun n => inside n ∨ part n) where
  bound := fun member => member.elim left.bound right.bound
  row := by
    intro n member
    rcases member with here | there
    · rcases left.row here with ⟨row, children, members⟩
      exact ⟨row, children, fun child at_ => .inl (members child at_)⟩
    · rcases right.row there with ⟨row, children, members⟩
      exact ⟨row, children, fun child at_ => .inr (members child at_)⟩
  up := by
    intro n owner member link
    rcases member with here | there
    · exact (left.up here link).imp_left .inl
    · exact (right.up there link).imp_left .inr
  behind := by
    intro n later member link
    rcases member with here | there
    · exact (left.behind here link).imp_left .inl
    · exact (right.behind there link).imp_left .inr
  before := by
    intro n earlier member link
    rcases member with here | there
    · exact (left.before here link).imp_left .inl
    · exact (right.before there link).imp_left .inr

/-- A node without siblings is the root of a tree of its own. -/
theorem tree (forest : LinkedForest links size inside) {node : Nat} (member : inside node)
    (alone : links.next node = none) (first : links.prev node = none) :
    LinkedForest (links.cut node) size (Within links node) where
  bound := fun within => forest.bound (forest.inside_within member within)
  row := by
    intro n within
    rcases forest.row (forest.inside_within member within) with ⟨row, children, _⟩
    have below : ∀ child ∈ row, Within links node child := fun child at_ =>
      within.tail ⟨row, children, at_⟩
    refine ⟨row, ?_, below⟩
    refine Row.congr children ?_ (fun _ _ => rfl) (fun _ _ => rfl)
    intro child at_
    have younger := (children.owned at_).2
    exact links.cut_parent (Nat.ne_of_gt (Nat.lt_of_le_of_lt within.le younger))
  up := by
    intro n owner within link
    rcases within_iff_eq_or_below.mp within with same | below
    · rw [same, links.cut_parent_same] at link
      cases link
    · rcases Relation.TransGen.tail'_iff.mp below with ⟨above, up, child⟩
      rw [links.cut_parent (below_iff.mp below).2, child.parent] at link
      cases link
      exact ⟨up, child.lt⟩
  behind := by
    intro n later within link
    have found := forest.behind (forest.inside_within member within) link
    refine ⟨?_, found.2⟩
    rcases within_iff_eq_or_below.mp within with same | below
    · rw [same] at link
      exact absurd (alone.symm.trans link) nofun
    · rcases Relation.TransGen.tail'_iff.mp below with ⟨above, up, child⟩
      rcases siblings_split child with ⟨front, behind, children, _, onward⟩
      rw [show links.next n = some later from link] at onward
      cases onward
      refine up.tail ⟨_, children, ?_⟩
      exact List.mem_append_right front (List.mem_cons_of_mem n List.mem_cons_self)
  before := by
    intro n earlier within link
    have found := forest.before (forest.inside_within member within) link
    refine ⟨?_, found.2⟩
    rcases within_iff_eq_or_below.mp within with same | below
    · rw [same] at link
      exact absurd (first.symm.trans link) nofun
    · rcases Relation.TransGen.tail'_iff.mp below with ⟨above, up, child⟩
      rcases siblings_split child with ⟨front, behind, children, back, _⟩
      rw [show links.prev n = some earlier from link] at back
      generalize reversed : front.reverse = line at back
      cases back
      refine up.tail ⟨_, children, List.mem_append_left _ ?_⟩
      rw [← List.mem_reverse, reversed]
      exact List.mem_cons_self

section Attaching

variable {other : Links} {larger owner node : Nat} {row : List Nat}
  (forest : LinkedForest links size inside) (loose : LinkedForest (links.cut node) larger part)
  (grows : size ≤ larger) (fresh : ∀ {n}, part n → size ≤ n) (top : part node)
  (alone : links.next node = none) (first : links.prev node = none) (member : inside owner)
  (children : Children links owner row) (attached : Attached links other owner node row)

include forest member children

/-- The last child is a node of the forest without a later sibling. -/
theorem last_of_row {last : Nat} (ends : row.getLast? = some last) :
    inside last ∧ Child links owner last ∧ links.next last = none := by
  have at_ := List.mem_of_getLast? ends
  have child : Child links owner last := ⟨row, children, at_⟩
  refine ⟨forest.inside_child member child, child, ?_⟩
  rcases List.getLast?_eq_some_iff.mp ends with ⟨front, rfl⟩
  have onward := children.after rfl
  cases found : links.next last with
  | none => rfl
  | some later =>
      rw [found] at onward
      cases onward

include attached

omit forest member in
/-- The row of the owner grows by the node. -/
theorem attached_row (below : owner < node) (apart : ∀ child ∈ row, child ≠ node)
    (alone : links.next node = none) : Children other owner (row ++ [node]) := by
  unfold Children
  rcases List.eq_nil_or_concat row with empty | ⟨front, last, split⟩
  · rw [attached.first empty, empty]
    refine .cons none node [] attached.up ?_ below ?_
    · rw [attached.back, empty]
      rfl
    · have kept : other.next node = links.next node := attached.next (by rw [empty]; nofun)
      rw [kept, alone]
      exact .nil _
  · rw [List.concat_eq_append] at split
    subst split
    have ends : (front ++ [last]).getLast? = some last := List.getLast?_append_of_ne_nil _ (by simp)
    have unlike : ∀ {n}, n ≠ last → (front ++ [last]).getLast? ≠ some n := by
      intro n different same
      exact different (Option.some.inj (same.symm.trans ends))
    have kept : other.children owner = links.children owner :=
      attached.children fun empty => absurd empty (by simp)
    rw [kept]
    refine Row.snoc children (fun n at_ => attached.parent (apart n at_))
      (fun n _ different => attached.next (unlike different))
      (fun n at_ => attached.prev (apart n at_)) (attached.link ends) attached.up
      (attached.back.trans ends) below ?_
    have notLast : node ≠ last := by
      intro same
      exact apart last (by simp) same.symm
    exact (attached.next (unlike notLast)).trans alone

include loose grows fresh top alone first

/-- A tree hung behind the last child makes the forest larger. -/
theorem attach : LinkedForest other larger (fun n => inside n ∨ part n) := by
  have apart : ∀ {n}, inside n → n ≠ node := fun here same =>
    absurd (forest.bound here) (Nat.not_lt.mpr (same ▸ fresh top))
  have older : ∀ {n}, inside n → n < node := fun here =>
    Nat.lt_of_lt_of_le (forest.bound here) (fresh top)
  have disjoint : ∀ {n}, inside n → ¬ part n := fun here there =>
    absurd (forest.bound here) (Nat.not_lt.mpr (fresh there))
  have rowInside : ∀ child ∈ row, inside child := fun child at_ =>
    forest.inside_child member ⟨row, children, at_⟩
  have notLast : ∀ {n}, part n → row.getLast? ≠ some n := fun there ends =>
    disjoint (forest.last_of_row member children ends).1 there
  constructor
  · rintro n (here | there)
    · exact Nat.lt_of_lt_of_le (forest.bound here) grows
    · exact loose.bound there
  · rintro n (here | there)
    · by_cases same : n = owner
      · rw [same]
        refine ⟨row ++ [node], attached_row children attached (older member)
          (fun child at_ => apart (rowInside child at_)) alone, ?_⟩
        intro child at_
        rcases List.mem_append.mp at_ with old | new
        · exact .inl (rowInside child old)
        · exact .inr (List.mem_singleton.mp new ▸ top)
      · rcases forest.row here with ⟨siblings, found, members⟩
        refine ⟨siblings, ?_, fun child at_ => .inl (members child at_)⟩
        unfold Children
        rw [attached.children fun _ => same]
        refine Row.congr found (fun child at_ => attached.parent (apart (members child at_))) ?_
          (fun child at_ => attached.prev (apart (members child at_)))
        intro child at_
        apply attached.next
        intro ends
        have owned := (forest.last_of_row member children ends).2.1
        exact same (Child.owner_unique ⟨siblings, found, at_⟩ owned)
    · rcases loose.row there with ⟨siblings, found, members⟩
      refine ⟨siblings, ?_, fun child at_ => .inr (members child at_)⟩
      have notTop : ∀ child ∈ siblings, child ≠ node := by
        intro child at_ same
        have owned := (found.owned at_).1
        rw [same, links.cut_parent_same] at owned
        cases owned
      unfold Children
      rw [attached.children fun _ same => disjoint member (same ▸ there)]
      refine Row.congr found ?_ (fun child at_ => attached.next (notLast (members child at_)))
        (fun child at_ => attached.prev (notTop child at_))
      intro child at_
      rw [attached.parent (notTop child at_), links.cut_parent (notTop child at_)]
  · rintro n above (here | there) link
    · rw [attached.parent (apart here)] at link
      exact (forest.up here link).imp_left .inl
    · by_cases same : n = node
      · rw [same, attached.up] at link
        cases link
        exact ⟨.inl member, same ▸ older member⟩
      · rw [attached.parent same, ← links.cut_parent same] at link
        exact (loose.up there link).imp_left .inr
  · rintro n later (here | there) link
    · by_cases ends : row.getLast? = some n
      · rw [attached.link ends] at link
        cases link
        exact ⟨.inr top, older here, attached.back.trans ends⟩
      · rw [attached.next ends] at link
        have found := forest.behind here link
        exact ⟨.inl found.1, found.2.1, (attached.prev (apart found.1)).trans found.2.2⟩
    · rw [attached.next (notLast there)] at link
      have found := loose.behind there link
      refine ⟨.inr found.1, found.2.1, ?_⟩
      by_cases same : later = node
      · have back : links.prev later = some n := found.2.2
        rw [same, first] at back
        cases back
      · exact (attached.prev same).trans found.2.2
  · rintro n earlier (here | there) link
    · rw [attached.prev (apart here)] at link
      exact (forest.before here link).imp_left .inl
    · by_cases same : n = node
      · rw [same, attached.back] at link
        have last := (forest.last_of_row member children link).1
        exact ⟨.inl last, same ▸ older last⟩
      · rw [attached.prev same] at link
        exact (loose.before there link).imp_left .inr

end Attaching

end LinkedForest

end Library
