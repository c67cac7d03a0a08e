import Mathlib.Data.List.Induction
import Mathlib.Data.Option.Basic
import TurboXSL.Library.Arena

namespace Library

/-!
# Tries in a growing memory

A trie whose nodes are allocated in an `Arena` and found through the
dictionaries of their parents.  A key may be missing (`none`): it is never
found, and the node made for it is not linked to its parent.

A path names at most one node, and a node has at most one path
(`descend_injective`), so a trie is a finite map from paths to values
(`valueAt`) together with the paths it has nodes for.  `valueAt_insert` and
`hasPath_insert` say what insertion does to both; `deepest_spec` says where a
walk that goes as deep as it can comes to rest.
-/

universe u v

structure TrieNode (Key : Type u) (Value : Type v) where
  value : Option Value := none
  children : List (Key × Nat) := []

/-- The root is node `0`. -/
abbrev Trie (Key : Type u) (Value : Type v) := Arena (TrieNode Key Value)

namespace Trie

variable {Key : Type u} {Value : Type v} [DecidableEq Key]

/-- Nothing but the root. -/
def empty : Trie Key Value := ⟨1, fun _ => {}⟩

def child (trie : Trie Key Value) (node : Nat) (key : Option Key) : Option Nat :=
  key.bind fun key => (trie.get node).children.lookup key

/-- Follow a path to its end. -/
def descend (trie : Trie Key Value) : Nat → List Key → Option Nat
  | node, [] => some node
  | node, key :: rest => (trie.child node (some key)).bind fun next => descend trie next rest

/-- Follow a path as far as it goes. -/
def deepest (trie : Trie Key Value) : Nat → List (Option Key) → Nat
  | node, [] => node
  | node, key :: rest =>
      match trie.child node key with
      | none => node
      | some next => deepest trie next rest

/-- The child for a key, made where it is missing. -/
def link (trie : Trie Key Value) (node : Nat) (key : Option Key) : Trie Key Value × Nat :=
  match trie.child node key with
  | some next => (trie, next)
  | none =>
      match key with
      | none => (trie.alloc {}, trie.size)
      | some key =>
          ((trie.alloc {}).modify node fun cell =>
            { cell with children := (key, trie.size) :: cell.children }, trie.size)

/-- The end of a path, made where it is missing. -/
def grow (trie : Trie Key Value) (node : Nat) : List (Option Key) → Trie Key Value × Nat
  | [] => (trie, node)
  | key :: rest =>
      let (trie, next) := trie.link node key
      grow trie next rest

def setValue (trie : Trie Key Value) (node : Nat) (value : Value) : Trie Key Value :=
  trie.modify node fun cell => { cell with value := some value }

def insert (trie : Trie Key Value) (keys : List (Option Key)) (value : Value) : Trie Key Value :=
  let (trie, node) := trie.grow 0 keys
  trie.setValue node value

/-- The value at the end of a path. -/
def valueAt (trie : Trie Key Value) (path : List Key) : Option Value :=
  (trie.descend 0 path).bind fun node => (trie.get node).value

def HasPath (trie : Trie Key Value) (path : List Key) : Prop := (trie.descend 0 path).isSome

/-- Children come later than their parents and have one parent and one key. -/
structure WellFormed (trie : Trie Key Value) : Prop where
  rooted : 0 < trie.size
  blank : ∀ node, trie.size ≤ node → trie.get node = {}
  ordered : ∀ node key next, trie.child node key = some next → node < next ∧ next < trie.size
  single : ∀ first second key other next, trie.child first key = some next →
    trie.child second other = some next → first = second ∧ key = other

/-! ## Children and paths -/

@[simp] theorem child_none (trie : Trie Key Value) (node : Nat) :
    trie.child node none = none := rfl

theorem wellFormed_empty : (empty : Trie Key Value).WellFormed where
  rooted := Nat.zero_lt_one
  blank := fun _ _ => rfl
  ordered := by
    intro node key next found
    cases key <;> cases found
  single := by
    intro first second key other next found
    cases key <;> cases found

theorem child_eq_none_of_size_le {trie : Trie Key Value} (formed : trie.WellFormed) {node : Nat}
    (beyond : trie.size ≤ node) (key : Option Key) : trie.child node key = none := by
  unfold child
  rw [formed.blank node beyond]
  cases key <;> rfl

theorem descend_append (trie : Trie Key Value) (node : Nat) (front back : List Key) :
    trie.descend node (front ++ back) =
      (trie.descend node front).bind fun next => trie.descend next back := by
  induction front generalizing node with
  | nil => rfl
  | cons key rest inductionHypothesis =>
      simp only [List.cons_append, descend]
      cases trie.child node (some key) with
      | none => rfl
      | some next => exact inductionHypothesis next

theorem descend_snoc_eq_some_iff (trie : Trie Key Value) (node next : Nat) (front : List Key)
    (key : Key) : trie.descend node (front ++ [key]) = some next ↔
      Exists fun last => trie.descend node front = some last ∧
        trie.child last (some key) = some next := by
  rw [descend_append]
  simp [descend, Option.bind_eq_some_iff]

theorem descend_lt_size {trie : Trie Key Value} (formed : trie.WellFormed) (path : List Key)
    {node : Nat} (reached : trie.descend 0 path = some node) : node < trie.size := by
  rcases List.eq_nil_or_concat path with rfl | ⟨front, key, rfl⟩
  · cases reached
    exact formed.rooted
  · rw [List.concat_eq_append, descend_snoc_eq_some_iff] at reached
    rcases reached with ⟨last, _, found⟩
    exact (formed.ordered last _ node found).2

/-- A node has at most one path. -/
theorem descend_injective {trie : Trie Key Value} (formed : trie.WellFormed)
    {first second : List Key} {node : Nat} (left : trie.descend 0 first = some node)
    (right : trie.descend 0 second = some node) : first = second := by
  induction first using List.reverseRecOn generalizing second node with
  | nil =>
      rcases List.eq_nil_or_concat second with rfl | ⟨front, key, rfl⟩
      · rfl
      · cases left
        rw [List.concat_eq_append, descend_snoc_eq_some_iff] at right
        rcases right with ⟨last, _, found⟩
        exact absurd (formed.ordered last _ 0 found).1 (Nat.not_lt_zero last)
  | append_singleton front key inductionHypothesis =>
      rw [descend_snoc_eq_some_iff] at left
      rcases left with ⟨last, reached, found⟩
      rcases List.eq_nil_or_concat second with rfl | ⟨otherFront, otherKey, rfl⟩
      · cases right
        exact absurd (formed.ordered last _ 0 found).1 (Nat.not_lt_zero last)
      · rw [List.concat_eq_append, descend_snoc_eq_some_iff] at right
        rcases right with ⟨otherLast, otherReached, otherFound⟩
        rcases formed.single last otherLast _ _ node found otherFound with ⟨rfl, sameKey⟩
        rw [inductionHypothesis reached otherReached, Option.some.inj sameKey,
          List.concat_eq_append]

/-- A walk rests at the end of the longest path of the trie that the keys
begin with. -/
theorem deepest_spec (trie : Trie Key Value) (node : Nat) (keys : List (Option Key)) :
    Exists fun path => path.map some <+: keys ∧
      trie.descend node path = some (trie.deepest node keys) ∧
      ∀ other, other.map some <+: keys → (trie.descend node other).isSome →
        other.length ≤ path.length := by
  induction keys generalizing node with
  | nil =>
      refine ⟨[], List.prefix_refl _, rfl, ?_⟩
      intro other front _
      have none_ := List.map_eq_nil_iff.mp (List.prefix_nil.mp front)
      exact Nat.le_of_eq (congrArg List.length none_)
  | cons key rest inductionHypothesis =>
      cases found : trie.child node key with
      | none =>
          refine ⟨[], List.nil_prefix, ?_, ?_⟩
          · simp only [descend, deepest, found]
          · intro other front exists_
            cases other with
            | nil => exact Nat.le_refl 0
            | cons first others =>
                rw [List.map_cons, List.cons_prefix_cons] at front
                rw [descend, front.1, found] at exists_
                cases exists_
      | some next =>
          rcases inductionHypothesis next with ⟨path, front, reached, longest⟩
          cases key with
          | none => cases found
          | some key =>
              refine ⟨key :: path, ?_, ?_, ?_⟩
              · rw [List.map_cons, List.cons_prefix_cons]
                exact ⟨rfl, front⟩
              · simp only [descend, deepest, found]
                exact reached
              · intro other otherFront exists_
                cases other with
                | nil => exact Nat.zero_le _
                | cons first others =>
                    rw [List.map_cons, List.cons_prefix_cons] at otherFront
                    rw [descend, otherFront.1, found] at exists_
                    exact Nat.succ_le_succ (longest others otherFront.2 exists_)

/-! ## One link -/

/-- What a link adds: nothing, or one new node without children. -/
theorem link_child {trie : Trie Key Value} (formed : trie.WellFormed) {node : Nat}
    (inside : node < trie.size) (key : Option Key) (other : Nat) (otherKey : Option Key)
    (next : Nat) : (trie.link node key).1.child other otherKey = some next ↔
      trie.child other otherKey = some next ∨
        (trie.child node key = none ∧ key.isSome ∧ other = node ∧ otherKey = key ∧
          next = trie.size) := by
  have fresh (other : Nat) : (trie.alloc {}).get other = trie.get other := by
    by_cases same : other = trie.size
    · rw [same, Arena.alloc_get_same, formed.blank trie.size (Nat.le_refl _)]
    · exact Arena.alloc_get_of_ne trie {} same
  cases found : trie.child node key with
  | some existing => simp [link, found]
  | none =>
      cases key with
      | none => simp [link, child, fresh]
      | some key =>
          cases otherKey with
          | none => simp [link, child]
          | some otherKey =>
              have absent : List.lookup key (trie.get node).children = none := found
              by_cases same : other = node
              · subst same
                by_cases sameKey : otherKey = key
                · subst sameKey
                  simp [link, child, absent, fresh, List.lookup_cons, eq_comm]
                · have differ : (otherKey == key) = false := beq_eq_false_iff_ne.mpr sameKey
                  simp [link, child, absent, fresh, List.lookup_cons, sameKey, differ]
              · simp [link, child, absent, Arena.modify_get_of_ne _ _ same, fresh, same]

theorem link_size_le (trie : Trie Key Value) (node : Nat) (key : Option Key) :
    trie.size ≤ (trie.link node key).1.size := by
  unfold link
  cases trie.child node key with
  | some next => exact Nat.le_refl _
  | none => cases key <;> exact Nat.le_succ _

theorem link_value {trie : Trie Key Value} (formed : trie.WellFormed) (node : Nat)
    (key : Option Key) (other : Nat) :
    ((trie.link node key).1.get other).value = (trie.get other).value := by
  have fresh (other : Nat) : (trie.alloc {}).get other = trie.get other := by
    by_cases same : other = trie.size
    · rw [same, Arena.alloc_get_same, formed.blank trie.size (Nat.le_refl _)]
    · exact Arena.alloc_get_of_ne trie {} same
  unfold link
  cases trie.child node key with
  | some next => rfl
  | none =>
      cases key with
      | none => rw [fresh]
      | some key =>
          by_cases same : other = node
          · subst same
            rw [Arena.modify_get_same, fresh]
          · rw [Arena.modify_get_of_ne _ _ same, fresh]

/-- The node a link leads to: the child there was, or the new node. -/
theorem link_target (trie : Trie Key Value) (node : Nat) (key : Option Key) :
    (trie.link node key).2 = (trie.child node key).getD trie.size := by
  unfold link
  cases trie.child node key with
  | some next => rfl
  | none => cases key <;> rfl

theorem link_target_lt {trie : Trie Key Value} (formed : trie.WellFormed) (node : Nat)
    (key : Option Key) : (trie.link node key).2 < (trie.link node key).1.size := by
  cases found : trie.child node key with
  | some next =>
      rw [link_target, found]
      exact Nat.lt_of_lt_of_le (formed.ordered node key next found).2 (trie.link_size_le node key)
  | none =>
      rw [link_target, found]
      simp only [link, found]
      cases key <;> exact Nat.lt_succ_self _

theorem link_wellFormed {trie : Trie Key Value} (formed : trie.WellFormed) {node : Nat}
    (inside : node < trie.size) (key : Option Key) : (trie.link node key).1.WellFormed where
  rooted := Nat.lt_of_lt_of_le formed.rooted (trie.link_size_le node key)
  blank := by
    intro other beyond
    cases found : trie.child node key with
    | some next =>
        simp only [link, found] at beyond ⊢
        exact formed.blank other beyond
    | none =>
        have different : other ≠ node := by
          intro same
          subst same
          exact absurd (Nat.lt_of_lt_of_le inside (trie.link_size_le other key))
            (Nat.not_lt_of_le beyond)
        cases key with
        | none =>
            simp only [link, child_none] at beyond ⊢
            rw [Arena.alloc_get_of_ne _ _ (Nat.ne_of_gt beyond)]
            exact formed.blank other (Nat.le_of_succ_le beyond)
        | some key =>
            simp only [link, found] at beyond ⊢
            rw [Arena.modify_get_of_ne _ _ different, Arena.alloc_get_of_ne _ _ (Nat.ne_of_gt beyond)]
            exact formed.blank other (Nat.le_of_succ_le beyond)
  ordered := by
    intro other otherKey next found
    rcases (link_child formed inside key other otherKey next).mp found with old | ⟨none, _, rfl, _, rfl⟩
    · have before := formed.ordered other otherKey next old
      exact ⟨before.1, Nat.lt_of_lt_of_le before.2 (trie.link_size_le node key)⟩
    · have target := link_target_lt formed other key
      rw [link_target, none] at target
      exact ⟨inside, target⟩
  single := by
    intro first second firstKey secondKey next left right
    rcases (link_child formed inside key first firstKey next).mp left with
      oldLeft | ⟨_, _, rfl, rfl, rfl⟩
    · rcases (link_child formed inside key second secondKey next).mp right with
        oldRight | ⟨_, _, rfl, rfl, rfl⟩
      · exact formed.single first second firstKey secondKey next oldLeft oldRight
      · exact absurd (formed.ordered first firstKey _ oldLeft).2 (Nat.lt_irrefl _)
    · rcases (link_child formed inside _ second secondKey _).mp right with
        oldRight | ⟨_, _, rfl, rfl, _⟩
      · exact absurd (formed.ordered second secondKey _ oldRight).2 (Nat.lt_irrefl _)
      · exact ⟨rfl, rfl⟩

/-- The paths that a link adds: the one to the new node, if the node it is
linked to has a path. -/
theorem link_descend {trie : Trie Key Value} (formed : trie.WellFormed) {node : Nat}
    (inside : node < trie.size) (key : Option Key) (path : List Key) (next : Nat) :
    (trie.link node key).1.descend 0 path = some next ↔
      trie.descend 0 path = some next ∨
        (trie.child node key = none ∧ next = trie.size ∧
          Exists fun front => Exists fun last => key = some last ∧ path = front ++ [last] ∧
            trie.descend 0 front = some node) := by
  induction path using List.reverseRecOn generalizing next with
  | nil =>
      simp only [descend, Option.some.injEq]
      constructor
      · intro same
        exact .inl same
      · rintro (same | ⟨_, _, front, last, _, impossible, _⟩)
        · exact same
        · exact absurd impossible.symm (by simp)
  | append_singleton front key' inductionHypothesis =>
      rw [descend_snoc_eq_some_iff, descend_snoc_eq_some_iff]
      constructor
      · rintro ⟨last, reached, found⟩
        rcases (inductionHypothesis last).mp reached with old | ⟨_, rfl, _⟩
        · rcases (link_child formed inside key last (some key') next).mp found with
            oldChild | ⟨absent, _, rfl, rfl, rfl⟩
          · exact .inl ⟨last, old, oldChild⟩
          · exact .inr ⟨absent, rfl, front, key', rfl, rfl, old⟩
        · rcases (link_child formed inside key trie.size (some key') next).mp found with
            oldChild | ⟨_, _, same, _⟩
          · rw [child_eq_none_of_size_le formed (Nat.le_refl _)] at oldChild
            cases oldChild
          · exact absurd (same ▸ inside) (Nat.lt_irrefl _)
      · rintro (⟨last, reached, found⟩ | ⟨absent, rfl, otherFront, last, rfl, samePath, reached⟩)
        · exact ⟨last, (inductionHypothesis last).mpr (.inl reached),
            (link_child formed inside key last _ next).mpr (.inl found)⟩
        · have parts := List.append_inj_right' samePath rfl
          have fronts := List.append_inj_left' samePath rfl
          cases parts
          subst fronts
          exact ⟨node, (inductionHypothesis node).mpr (.inl reached),
            (link_child formed inside _ node _ _).mpr (.inr ⟨absent, rfl, rfl, rfl, rfl⟩)⟩

/-! ## Whole paths -/

/-- What growth leaves as it is: the values, and the paths to the nodes
there were.  The end of the growth is a node. -/
structure Grows (before after : Trie Key Value) (node : Nat) : Prop where
  formed : after.WellFormed
  inside : node < after.size
  value : ∀ other, (after.get other).value = (before.get other).value
  old : ∀ other < before.size, ∀ path,
    after.descend 0 path = some other ↔ before.descend 0 path = some other

theorem Grows.linked {trie after : Trie Key Value} (formed : trie.WellFormed) {node target : Nat}
    (inside : node < trie.size) {key : Option Key}
    (later : Grows (trie.link node key).1 after target) : Grows trie after target where
  formed := later.formed
  inside := later.inside
  value := fun other => (later.value other).trans (link_value formed node key other)
  old := by
    intro other before path
    rw [later.old other (Nat.lt_of_lt_of_le before (trie.link_size_le node key)),
      link_descend formed inside]
    constructor
    · rintro (old | ⟨_, rfl, _⟩)
      · exact old
      · exact absurd before (Nat.lt_irrefl _)
    · exact .inl

/-- Growth below a node that has no path adds no paths. -/
theorem grow_of_unreachable {trie : Trie Key Value} (formed : trie.WellFormed) {node : Nat}
    (inside : node < trie.size) (keys : List (Option Key))
    (unreachable : ∀ path, trie.descend 0 path ≠ some node) :
    Grows trie (trie.grow node keys).1 (trie.grow node keys).2 ∧
      (∀ path, (trie.grow node keys).1.descend 0 path = trie.descend 0 path) ∧
      (∀ path, (trie.grow node keys).1.descend 0 path ≠ some (trie.grow node keys).2) := by
  induction keys generalizing trie node with
  | nil => exact ⟨⟨formed, inside, fun _ => rfl, fun _ _ _ => Iff.rfl⟩, fun _ => rfl, unreachable⟩
  | cons key rest inductionHypothesis =>
      have same (path : List Key) :
          (trie.link node key).1.descend 0 path = trie.descend 0 path := by
        apply Option.ext
        intro next
        rw [link_descend formed inside]
        constructor
        · rintro (old | ⟨_, _, front, _, _, _, reached⟩)
          · exact old
          · exact absurd reached (unreachable front)
        · exact .inl
      have stillUnreachable (path : List Key) :
          (trie.link node key).1.descend 0 path ≠ some (trie.link node key).2 := by
        rw [same, link_target]
        intro reached
        cases found : trie.child node key with
        | none =>
            rw [found] at reached
            exact absurd (descend_lt_size formed path reached) (Nat.lt_irrefl _)
        | some next =>
            rw [found] at reached
            rcases List.eq_nil_or_concat path with rfl | ⟨front, last, rfl⟩
            · cases reached
              exact absurd (formed.ordered node key 0 found).1 (Nat.not_lt_zero node)
            · rw [List.concat_eq_append, descend_snoc_eq_some_iff] at reached
              rcases reached with ⟨parent, above, below⟩
              have parents := (formed.single parent node _ _ _ below found).1
              exact unreachable front (parents ▸ above)
      rcases inductionHypothesis (link_wellFormed formed inside key)
        (link_target_lt formed node key) stillUnreachable with ⟨later, paths, ends⟩
      exact ⟨later.linked formed inside, fun path => (paths path).trans (same path), ends⟩

/-- Growth below the end of a path: the path to the target is the whole list
of keys, and the paths added are those on the way. -/
theorem grow_spec {trie : Trie Key Value} (formed : trie.WellFormed) {node : Nat}
    {front : List Key} (reached : trie.descend 0 front = some node) (keys : List (Option Key)) :
    Grows trie (trie.grow node keys).1 (trie.grow node keys).2 ∧
      (∀ path, (trie.grow node keys).1.descend 0 path = some (trie.grow node keys).2 ↔
        path.map some = front.map some ++ keys) ∧
      (∀ path, (trie.grow node keys).1.HasPath path ↔ trie.HasPath path ∨
        Exists fun more => path = front ++ more ∧ more.map some <+: keys) := by
  induction keys generalizing trie node front with
  | nil =>
      refine ⟨⟨formed, descend_lt_size formed front reached, fun _ => rfl, fun _ _ _ => Iff.rfl⟩,
        ?_, ?_⟩
      · intro path
        rw [List.append_nil]
        constructor
        · intro same
          rw [descend_injective formed same reached]
        · intro same
          rw [List.map_injective_iff.mpr (Option.some_injective Key) same]
          exact reached
      · intro path
        constructor
        · intro has
          exact .inl has
        · rintro (has | ⟨more, rfl, empty⟩)
          · exact has
          · rw [List.map_eq_nil_iff.mp (List.prefix_nil.mp empty), List.append_nil]
            exact Option.isSome_iff_exists.mpr ⟨node, reached⟩
  | cons key rest inductionHypothesis =>
      have inside := descend_lt_size formed front reached
      have linked := link_wellFormed formed inside key
      cases key with
      | none =>
          have same (path : List Key) (next : Nat) :
              (trie.link node none).1.descend 0 path = some next ↔
                trie.descend 0 path = some next := by
            rw [link_descend formed inside]
            constructor
            · rintro (old | ⟨_, _, _, _, none, _⟩)
              · exact old
              · cases none
            · exact .inl
          have unreachable (path : List Key) :
              (trie.link node none).1.descend 0 path ≠ some (trie.link node none).2 := by
            rw [link_target, child_none, ne_eq, same]
            intro old
            exact absurd (descend_lt_size formed path old) (Nat.lt_irrefl _)
          rcases grow_of_unreachable linked (link_target_lt formed node none) rest unreachable with
            ⟨later, paths, ends⟩
          refine ⟨later.linked formed inside, ?_, ?_⟩
          · intro path
            constructor
            · intro same
              exact absurd same (ends path)
            · intro impossible
              have member : (none : Option Key) ∈ path.map some := by
                rw [impossible]
                simp
              simp at member
          · intro path
            have samePath : (trie.grow node (none :: rest)).1.HasPath path ↔ trie.HasPath path := by
              unfold HasPath
              rw [show grow trie node (none :: rest) = grow (trie.link node none).1
                (trie.link node none).2 rest from rfl, paths, Option.isSome_iff_exists,
                Option.isSome_iff_exists]
              exact exists_congr (same path)
            rw [samePath]
            constructor
            · exact .inl
            · rintro (has | ⟨more, rfl, onWay⟩)
              · exact has
              · cases more with
                | nil =>
                    rw [List.append_nil]
                    exact Option.isSome_iff_exists.mpr ⟨node, reached⟩
                | cons first others =>
                    rw [List.map_cons, List.cons_prefix_cons] at onWay
                    cases onWay.1
      | some key =>
          have below : (trie.link node (some key)).1.descend 0 (front ++ [key]) =
              some (trie.link node (some key)).2 := by
            rw [link_descend formed inside, link_target]
            cases found : trie.child node (some key) with
            | some next =>
                exact .inl ((descend_snoc_eq_some_iff trie 0 next front key).mpr
                  ⟨node, reached, found⟩)
            | none => exact .inr ⟨rfl, rfl, front, key, rfl, rfl, reached⟩
          have linkedPaths (path : List Key) : (trie.link node (some key)).1.HasPath path ↔
              trie.HasPath path ∨ path = front ++ [key] := by
            constructor
            · intro has
              rcases Option.isSome_iff_exists.mp has with ⟨next, new⟩
              rcases (link_descend formed inside (some key) path next).mp new with
                old | ⟨_, _, otherFront, last, sameKey, samePath, otherReached⟩
              · exact .inl (Option.isSome_iff_exists.mpr ⟨next, old⟩)
              · cases sameKey
                rw [samePath, descend_injective formed otherReached reached]
                exact .inr rfl
            · rintro (has | rfl)
              · rcases Option.isSome_iff_exists.mp has with ⟨next, old⟩
                exact Option.isSome_iff_exists.mpr
                  ⟨next, (link_descend formed inside (some key) path next).mpr (.inl old)⟩
              · exact Option.isSome_iff_exists.mpr ⟨_, below⟩
          rcases inductionHypothesis linked below with ⟨later, ends, paths⟩
          refine ⟨later.linked formed inside, ?_, ?_⟩
          · intro path
            refine (ends path).trans ?_
            rw [List.map_append, List.append_assoc]
            rfl
          · intro path
            refine (paths path).trans ?_
            rw [linkedPaths]
            constructor
            · rintro ((has | rfl) | ⟨more, rfl, onWay⟩)
              · exact .inl has
              · exact .inr ⟨[key], rfl, by simp⟩
              · refine .inr ⟨key :: more, by simp, ?_⟩
                rw [List.map_cons, List.cons_prefix_cons]
                exact ⟨rfl, onWay⟩
            · rintro (has | ⟨more, rfl, onWay⟩)
              · exact .inl (.inl has)
              · cases more with
                | nil =>
                    rw [List.append_nil]
                    exact .inl (.inl (Option.isSome_iff_exists.mpr ⟨node, reached⟩))
                | cons first others =>
                    rw [List.map_cons, List.cons_prefix_cons] at onWay
                    cases onWay.1
                    exact .inr ⟨others, by simp, onWay.2⟩

/-- A node with a value was there before, or its path was. -/
theorem Grows.valueAt {before after : Trie Key Value} {node : Nat}
    (grows : Grows before after node) (formed : before.WellFormed) (path : List Key) :
    after.valueAt path = before.valueAt path := by
  apply Option.ext
  intro value
  unfold Trie.valueAt
  rw [Option.bind_eq_some_iff, Option.bind_eq_some_iff]
  refine exists_congr fun other => ?_
  rw [grows.value]
  by_cases there : other < before.size
  · rw [grows.old other there]
  · rw [formed.blank other (Nat.le_of_not_lt there)]
    simp

/-! ## Values -/

theorem setValue_child (trie : Trie Key Value) (node : Nat) (value : Value) (other : Nat)
    (key : Option Key) : (trie.setValue node value).child other key = trie.child other key := by
  unfold setValue child
  by_cases same : other = node
  · subst same
    rw [Arena.modify_get_same]
  · rw [Arena.modify_get_of_ne _ _ same]

theorem setValue_descend (trie : Trie Key Value) (node : Nat) (value : Value) (start : Nat)
    (path : List Key) : (trie.setValue node value).descend start path = trie.descend start path := by
  induction path generalizing start with
  | nil => rfl
  | cons key rest inductionHypothesis =>
      simp only [descend, setValue_child, inductionHypothesis]

theorem setValue_wellFormed {trie : Trie Key Value} (formed : trie.WellFormed) {node : Nat}
    (inside : node < trie.size) (value : Value) : (trie.setValue node value).WellFormed where
  rooted := formed.rooted
  blank := by
    intro other beyond
    have different : other ≠ node := Nat.ne_of_gt (Nat.lt_of_lt_of_le inside beyond)
    rw [setValue, Arena.modify_get_of_ne _ _ different]
    exact formed.blank other beyond
  ordered := by
    intro other key next found
    rw [setValue_child] at found
    exact formed.ordered other key next found
  single := by
    intro first second key other next left right
    rw [setValue_child] at left right
    exact formed.single first second key other next left right

/-- Setting the value of a node changes the value of its path only. -/
theorem setValue_valueAt (trie : Trie Key Value) (node : Nat) (value : Value) (path : List Key) :
    (trie.setValue node value).valueAt path =
      if trie.descend 0 path = some node then some value else trie.valueAt path := by
  unfold valueAt
  rw [setValue_descend]
  cases trie.descend 0 path with
  | none => rfl
  | some next =>
      by_cases same : next = node
      · subst same
        simp [setValue]
      · simp [setValue, Arena.modify_get_of_ne _ _ same, same]

section Insert

variable {trie : Trie Key Value} (formed : trie.WellFormed) (keys : List (Option Key))

include formed

/-- Growth from the root. -/
theorem grow_root : Grows trie (trie.grow 0 keys).1 (trie.grow 0 keys).2 ∧
    (∀ path, (trie.grow 0 keys).1.descend 0 path = some (trie.grow 0 keys).2 ↔
      path.map some = keys) ∧
    (∀ path, (trie.grow 0 keys).1.HasPath path ↔ trie.HasPath path ∨ path.map some <+: keys) := by
  have reached : trie.descend 0 ([] : List Key) = some 0 := rfl
  simpa using grow_spec formed reached keys

variable (value : Value)

theorem insert_wellFormed : (trie.insert keys value).WellFormed := by
  have grown := (grow_root formed keys).1
  exact setValue_wellFormed grown.formed grown.inside value

/-- Insertion sets the value of one path. -/
theorem valueAt_insert (path : List Key) : (trie.insert keys value).valueAt path =
    if path.map some = keys then some value else trie.valueAt path := by
  have grown := grow_root formed keys
  rw [insert, setValue_valueAt, grown.1.valueAt formed]
  simp only [grown.2.1]

/-- Insertion adds the paths on the way to the one inserted. -/
theorem hasPath_insert (path : List Key) :
    (trie.insert keys value).HasPath path ↔ trie.HasPath path ∨ path.map some <+: keys := by
  unfold HasPath
  rw [insert, setValue_descend]
  exact (grow_root formed keys).2.2 path

/-- A node with a value after an insertion is the one inserted, or it is an
old one with its old paths. -/
theorem insert_node {node : Nat} {found : Value}
    (has : ((trie.insert keys value).get node).value = some found) :
    (found = value ∧ ∀ path, (trie.insert keys value).descend 0 path = some node ↔
        path.map some = keys) ∨
      ((trie.get node).value = some found ∧ ∀ path,
        (trie.insert keys value).descend 0 path = some node ↔ trie.descend 0 path = some node) := by
  have grown := grow_root formed keys
  simp only [insert, setValue_descend] at has ⊢
  by_cases same : node = (trie.grow 0 keys).2
  · subst same
    rw [setValue, Arena.modify_get_same] at has
    exact .inl ⟨(Option.some.inj has).symm, grown.2.1⟩
  · rw [setValue, Arena.modify_get_of_ne _ _ same, grown.1.value] at has
    refine .inr ⟨has, fun path => ?_⟩
    refine grown.1.old node (Nat.lt_of_not_le fun beyond => ?_) path
    rw [formed.blank node beyond] at has
    cases has

end Insert

end Trie

end Library
