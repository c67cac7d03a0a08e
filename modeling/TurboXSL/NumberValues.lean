import TurboXSL.StringValues

namespace TurboXSL

open Library Parse

/-!
# The number of a node-set

`rval2number` reads the text of the first child of a set's first node, or of
the node itself where it has no children; `rval2string` reads the node.  Both
use `node2string`, which takes character data alone, but anything else with
all that stands behind it.  So the number may be read from less text than the
string has: from the first text of mixed content, and without what stands
behind the first node.
-/

/-! ## Texts that begin with a number -/

/-- The test of `rval2number` before it calls `strtod`. -/
def BeginsNumber (string : Bytes) : Prop :=
  let start := skipSpaces string
  let digits := if byteAt start = '-'.toUInt8 then start.tail else start
  byteAt digits = '.'.toUInt8 ∨ isDigit (byteAt digits) = true

instance (string : Bytes) : Decidable (BeginsNumber string) :=
  inferInstanceAs (Decidable (_ ∨ _))

theorem textNumber_eq {Num : Type} [Double Num] (string : Bytes) :
    (textNumber string : Num) =
      if BeginsNumber string then Double.strtod (skipSpaces string) else Double.nan :=
  rfl

/-- Numbers that are told apart by the text they are read from; none is not a number. -/
abbrev Spelling := Option Bytes

instance : Double Spelling where
  ofInt := fun _ => none
  strtod := some
  nan := none
  isNan := Option.isNone
  add := fun left _ => left
  sub := fun left _ => left
  mul := fun left _ => left
  div := fun left _ => left
  mod := fun left _ => some left
  equal := fun left right => left = right
  less := fun _ _ => false
  print := fun number => number.getD []

/-- What decides stands in front of what is appended. -/
theorem BeginsNumber.append {text : Bytes} (begins : BeginsNumber text) (more : Bytes) :
    skipSpaces (text ++ more) = skipSpaces text ++ more ∧ BeginsNumber (text ++ more) := by
  have nul : ¬ (byteAt [] = '.'.toUInt8 ∨ isDigit (byteAt []) = true) := by decide
  have here : skipSpaces text ≠ [] := by
    intro nothing
    rw [BeginsNumber, nothing] at begins
    exact nul begins
  have skipped : skipSpaces (text ++ more) = skipSpaces text ++ more := by
    rw [skipSpaces, List.dropWhile_append, if_neg]
    · rfl
    · rwa [List.isEmpty_iff]
  refine ⟨skipped, ?_⟩
  rw [BeginsNumber] at begins ⊢
  rw [skipped]
  generalize skipSpaces text = start at begins here
  cases start with
  | nil => exact (here rfl).elim
  | cons c start =>
      have first : byteAt (c :: start ++ more) = byteAt (c :: start) := rfl
      rw [first]
      by_cases sign : byteAt (c :: start) = '-'.toUInt8
      · rw [if_pos sign] at begins ⊢
        cases start with
        | nil => exact (nul begins).elim
        | cons d start => exact begins
      · rw [if_neg sign] at begins ⊢
        exact begins

/-- Whatever `strtod` makes of a text, what is appended does not change the
number iff it is nothing or there is no number. -/
theorem textNumber_append_iff (text more : Bytes) :
    (∀ (Num : Type) [Double Num], (textNumber text : Num) = textNumber (text ++ more)) ↔
      more = [] ∨ ¬ BeginsNumber (text ++ more) := by
  constructor
  · intro same
    by_contra differs
    rcases not_or.mp differs with ⟨some_, number⟩
    have number := not_not.mp number
    have spelled := same Spelling
    rw [textNumber_eq, textNumber_eq, if_pos number] at spelled
    by_cases begins : BeginsNumber text
    · rw [if_pos begins, (begins.append more).1] at spelled
      exact some_ (List.append_right_eq_self.mp (Option.some.inj spelled).symm)
    · rw [if_neg begins] at spelled
      cases spelled
  · rintro (rfl | noNumber) Num _
    · rw [List.append_nil]
    · have begins : ¬ BeginsNumber text := fun begins => noNumber (begins.append more).2
      rw [textNumber_eq, textNumber_eq, if_neg noNumber, if_neg begins]

/-! ## What the two conversions read -/

/-- A node of a memory in which walks end, with children only where it has no
content of its own, and no attribute among them. -/
structure Readable (heap : Heap) (n : NodeId) (below behind : List NodeId) : Prop where
  spread : Spread heap n below behind
  childless : (heap.get n).type.isLeaf = true → (heap.get n).children = none
  child : ∀ c, (heap.get n).children = some c → (heap.get c).type ≠ .attribute

/-- The number and the number of the string are the same, whatever `strtod` does. -/
def NumberAgrees (heap : Heap) (head : NodeId) : Prop :=
  ∀ (Num : Type) [Double Num], rval2number heap (.nodeset (some head) : RValue Num) =
    (rval2string heap (.nodeset (some head) : RValue Num)).bind fun string =>
      rval2number heap (.string string : RValue Num)

/-- The nodes whose text the string has and the number, which begins at the
child `c`, has not. -/
def leftOut (heap : Heap) (c : NodeId) (below behind : List NodeId) : List NodeId :=
  (if (heap.get c).type = .text then below.tail else []) ++ behind

namespace Readable

variable {heap : Heap} {n : NodeId} {below behind : List NodeId}
  (readable : Readable heap n below behind)

include readable

theorem below_first {c : NodeId} (child : (heap.get n).children = some c) :
    Exists fun inner => Exists fun outer => below = c :: (inner ++ outer) ∧
      Spread heap c inner outer := by
  have down := readable.spread.down
  rw [child] at down
  cases down with
  | cons _ inner outer within onward =>
      refine ⟨inner, outer, rfl, within, onward, fun m at_ => ?_, fun m at_ => ?_⟩
      · exact readable.spread.bound m (List.mem_append_left behind (List.mem_cons_of_mem c at_))
      · exact readable.spread.leaf m (List.mem_append_left behind (List.mem_cons_of_mem c at_))

/-- What `node2string` finds for the first child, and what the string has besides. -/
theorem child_read {c : NodeId} (child : (heap.get n).children = some c)
    (holds : (heap.get c).type = .text → (heap.get c).content ≠ none) :
    Exists fun text => node2string heap c = some text ∧
      textOf heap (below ++ behind) = text ++ textOf heap (leftOut heap c below behind) := by
  rcases readable.below_first child with ⟨inner, outer, first, spread⟩
  by_cases type : (heap.get c).type = .text
  · rcases Option.ne_none_iff_exists'.mp (holds type) with ⟨text, content⟩
    have own : ownText heap c = text := by
      rw [ownText, if_pos type, content, Option.getD_some]
    refine ⟨text, ?_, ?_⟩
    · rw [Spread.node2string_leaf (by rw [type]; rfl), content]
    · rw [leftOut, if_pos type, first, List.cons_append, textOf, List.flatMap_cons, own]
      rfl
  · have other : (heap.get c).type.isLeaf = false :=
      decide_eq_false (not_or.mpr ⟨type, readable.child c child⟩)
    refine ⟨_, spread.node2string_tree other, ?_⟩
    have own : textOf heap [c] = [] := textOf_eq_nil.mpr fun m at_ =>
      List.mem_singleton.mp at_ ▸ if_neg type
    have split : c :: (inner ++ outer) ++ behind = [c] ++ (inner ++ outer) ++ behind := rfl
    rw [leftOut, if_neg type, first, split, textOf_append, textOf_append, own, textOf_append]
    rfl

/-- The number agrees iff the number is read from the node itself, or nothing
with text is left out, or there is no number in either; and the text that is
read exists. -/
theorem agrees_iff (type : (heap.get n).type ≠ .empty) :
    NumberAgrees heap n ↔ ∀ c, (heap.get n).children = some c →
      ((heap.get c).type = .text → (heap.get c).content ≠ none) ∧
        ((∀ m ∈ leftOut heap c below behind, ownText heap m = []) ∨
          ¬ BeginsNumber (textOf heap (below ++ behind))) := by
  have string : ∀ (Num : Type) [Double Num], rval2string heap (.nodeset (some n) : RValue Num) =
      (node2string heap n).map some := fun Num _ => if_neg type
  cases child : (heap.get n).children with
  | none =>
      refine iff_of_true (fun Num _ => ?_) nofun
      rw [string, rval2number, child, Option.getD_none]
      cases node2string heap n <;> rfl
  | some c =>
      have tree : (heap.get n).type.isLeaf = false := by
        cases leaf : (heap.get n).type.isLeaf with
        | true => cases child.symm.trans (readable.childless leaf)
        | false => rfl
      have number : ∀ (Num : Type) [Double Num],
          rval2number heap (.nodeset (some n) : RValue Num) =
            (node2string heap c).map textNumber := by
        intro Num _
        rw [rval2number, child, Option.getD_some]
      have joined : node2string heap n = some (textOf heap (below ++ behind)) := by
        rw [readable.spread.node2string_tree tree, textOf_append]
      have reads : (NumberAgrees heap n ↔ ∀ (Num : Type) [Double Num],
          (node2string heap c).map textNumber =
            some (textNumber (textOf heap (below ++ behind)) : Num)) := by
        refine forall₂_congr fun Num _ => ?_
        rw [number, string, joined]
        rfl
      rw [reads]
      constructor
      · rintro agree _ ⟨⟩
        have holds : (heap.get c).type = .text → (heap.get c).content ≠ none := by
          intro text nothing
          have found := agree Spelling
          rw [Spread.node2string_leaf (by rw [text]; rfl), nothing] at found
          cases found
        rcases readable.child_read child holds with ⟨text, read, whole⟩
        refine ⟨holds, ?_⟩
        rw [← textOf_eq_nil, whole]
        apply (textNumber_append_iff _ _).mp
        intro Num _
        have found := agree Num
        rw [read, whole] at found
        exact Option.some.inj found
      · intro condition Num _
        rcases condition c rfl with ⟨holds, nothing⟩
        rcases readable.child_read child holds with ⟨text, read, whole⟩
        rw [← textOf_eq_nil, whole] at nothing
        rw [read, whole, Option.map_some]
        exact congrArg some ((textNumber_append_iff _ _).mpr nothing Num)

end Readable

/-! ## Documents and node-sets -/

/-- The members of node-sets are readable. -/
theorem Region.readable {heap : Heap} {inside region : NodeId → Prop}
    (closed : Region heap inside region) {n : NodeId} (member : region n) {rest : List NodeId}
    (chain : Siblings heap (heap.get n).next rest) (others : ∀ m ∈ rest, region m) :
    Exists fun below => Exists fun behind => Readable heap n below behind := by
  rcases closed.spread member chain others with ⟨below, behind, spread⟩
  refine ⟨below, behind, spread, fun leaf => ?_, fun c child attribute_ => ?_⟩
  · rcases of_decide_eq_true leaf with text | attribute_
    · exact closed.text_children member text
    · rcases closed.image member with ⟨image, _, document | node⟩
      · rcases closed.linked.typed document with type | type | type <;>
        · rw [← image.type, attribute_] at type
          cases type
      · rw [image.children, node.children]
  · rcases closed.below member with ⟨nodes, walked, -, members⟩
    rw [child] at walked
    cases walked with
    | cons _ inner outer within onward =>
        rcases members c List.mem_cons_self with ⟨document, -⟩
        rcases closed.linked.typed document with type | type | type <;>
        · rw [type] at attribute_
          cases attribute_

/-- Two elements with a number each. -/
def numberedElements : Bytes := lit "<r><a>1</a><b>2</b></r>"

/-- The memory of the document once `*` has been evaluated at its element. -/
def numberedElementsSelected : Heap :=
  (newSelection (memoryAfter 60 numberedElements) [(2, 1), (4, 2)]).1

end TurboXSL
