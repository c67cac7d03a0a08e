import TurboXSL.StringValues

namespace TurboXSL

open Library Parse

/-!
# Comparisons

What a comparison means is one existential statement about the readings of
its sides: a number and a string have one reading, a node-set has one for
every node, and a missing attribute has none.  `rval_equal` and
`rval_compare` are compared with it.  They take other texts than the
string-values of the nodes where a node is not separate from what follows;
apart from that, `rval_compare` looks at the first nodes only and ranks a
missing attribute below everything.
-/

/-- What is known of `double`. -/
class LawfulDouble (Num : Type) [Double Num] : Prop where
  nan : Double.isNan (Double.nan : Num) = true
  whole : ∀ n : Int, Double.isNan (Double.ofInt n : Num) = false
  unordered : ∀ a b : Num, Double.isNan a = true ∨ Double.isNan b = true →
    Double.less a b = false ∧ Double.equal a b = false
  total : ∀ a b : Num, Double.isNan a = false → Double.isNan b = false →
    Double.equal a b = (!Double.less a b && !Double.less b a)
  asymm : ∀ a b : Num, Double.less a b = true → Double.less b a = false
  zero_one : Double.less (Double.ofInt 0 : Num) (Double.ofInt 1) = true

/-- The operators that compare. -/
inductive Comparison where
  | eq | ne | lt | le | gt | ge
deriving DecidableEq, Repr

namespace Comparison

/-- One way to read a side of a comparison. -/
inductive Reading (Num : Type) where
  | number (x : Num)
  | string (s : Bytes)

def type : Comparison → ExprType
  | .eq => .eq
  | .ne => .ne
  | .lt => .lt
  | .le => .le
  | .gt => .gt
  | .ge => .ge

/-- `<`, `<=`, `>` and `>=` -/
def relational : Comparison → Bool
  | .eq | .ne => false
  | _ => true

/-- On for `=`, off for `!=`. -/
def flag (c : Comparison) : Bool := c = .eq

variable {Num : Type} [Double Num]

/-- The function of `rvalue.c` for an operator. -/
def test (c : Comparison) (heap : Heap) (left right : RValue Num) : Option Bool :=
  match c with
  | .eq => rvalEqual heap left right true
  | .ne => rvalEqual heap left right false
  | .lt => rvalLess heap left right
  | .le => rvalLessOrEqual heap left right
  | .gt => rvalGreater heap left right
  | .ge => rvalGreaterOrEqual heap left right

/-! ## Meaning -/

def numbers (c : Comparison) (a b : Num) : Bool :=
  match c with
  | .eq => Double.equal a b
  | .ne => !Double.equal a b
  | .lt => Double.less a b
  | .le => Double.less a b || Double.equal a b
  | .gt => Double.less b a
  | .ge => Double.less b a || Double.equal a b

def truths (c : Comparison) (a b : Bool) : Bool :=
  match c with
  | .eq => a == b
  | .ne => a != b
  | .lt => !a && b
  | .le => !a || b
  | .gt => a && !b
  | .ge => a || !b

def Reading.toNumber : Reading Num → Num
  | .number x => x
  | .string s => textNumber s

/-- Strings are compared as strings by `=` and `!=`, everything else as
numbers. -/
def compares (c : Comparison) : Reading Num → Reading Num → Bool
  | .string s, .string t =>
      if c.relational then c.numbers (textNumber s : Num) (textNumber t) else decide (s = t) == c.flag
  | a, b => c.numbers a.toNumber b.toNumber

/-- The boolean value of a value. -/
def truth : RValue Num → Bool
  | .null => false
  | .bool b => b
  | .int n => n ≠ 0
  | .number x => !Double.equal x (Double.ofInt 0) && !Double.isNan x
  | .string s => s.getD [] ≠ []
  | .nodeset set => set.isSome

/-- The readings of a value that is not boolean. -/
inductive ReadsAs (heap : Heap) : RValue Num → Reading Num → Prop where
  | int (n : Int) : ReadsAs heap (.int n) (.number (Double.ofInt n))
  | number (x : Num) : ReadsAs heap (.number x) (.number x)
  | string (s : Bytes) : ReadsAs heap (.string (some s)) (.string s)
  | node {set : Ptr} {nodes : List NodeId} {n : NodeId} {s : Bytes}
      (listed : siblings heap set = some nodes) (member : n ∈ nodes)
      (value : StringValue heap n s) : ReadsAs heap (.nodeset set) (.string s)

/-- Some readings of both sides make the comparison true. -/
def SomeReadings (c : Comparison) (heap : Heap) (left right : RValue Num) : Prop :=
  Exists fun a => Exists fun b => ReadsAs heap left a ∧ ReadsAs heap right b ∧ c.compares a b = true

/-- The comparison is true of two values. -/
def Holds (c : Comparison) (heap : Heap) (left right : RValue Num) : Prop :=
  match left, right with
  | .bool a, right => c.truths a (truth right) = true
  | left, .bool b => c.truths (truth left) b = true
  | left, right => SomeReadings c heap left right

/-- The code answers, and it answers what the comparison means. -/
def Answers (c : Comparison) (heap : Heap) (left right : RValue Num) : Prop :=
  Exists fun answer => c.test heap left right = some answer ∧
    (answer = true ↔ Holds c heap left right)

/-! ## Conditions -/

/-- The values that expressions have: strings are not NULL, and the walks from
the nodes of sets end. -/
def Valid (heap : Heap) : RValue Num → Prop
  | .string s => s ≠ none
  | .nodeset set => Exists fun nodes => siblings heap set = some nodes ∧ AllSpread heap nodes
  | _ => True

/-- A node whose string-value `rval2number` takes: a node without children that
is separate, one whose first child is an element, or one whose first child is
its only text. -/
def Countable (heap : Heap) (n : NodeId) : Prop :=
  match (heap.get n).children with
  | none => Separate heap n
  | some child => (heap.get n).type.isLeaf = false ∧
      ((heap.get child).type.isLeaf = false ∨
        (heap.get child).type = .text ∧ (heap.get child).content ≠ none ∧
          Exists fun behind => Preorder heap.links (heap.get child).next behind ∧
            ∀ m ∈ behind, ownText heap m = [])

/-- The list that `nodeset_equal_common` looks through. -/
def standIn (heap : Heap) (head : NodeId) : Ptr :=
  if (heap.get head).type = .empty ∧ (heap.get head).children.isSome then (heap.get head).children
  else some head

/-- The nodes looked through are good, and where the children of a root stand
for the set they have the string-values of its nodes. -/
def InTurn (heap : Heap) (set : Ptr) (good : NodeId → Prop) : Prop :=
  ∀ head nodes, set = some head → siblings heap set = some nodes →
    Exists fun others => siblings heap (standIn heap head) = some others ∧
      (∀ n ∈ others, good n) ∧ ∀ s, (Exists fun n => n ∈ others ∧ StringValue heap n s) ↔
        Exists fun n => n ∈ nodes ∧ StringValue heap n s

/-- The texts that the code takes from nodes are their string-values. -/
def Plain (c : Comparison) (heap : Heap) (left right : RValue Num) : Prop :=
  if c.relational then
    ∀ head, left = .nodeset (some head) ∨ right = .nodeset (some head) → Countable heap head
  else
    match left, right with
    | .null, _ | _, .null | .bool _, _ | _, .bool _ => True
    | .nodeset left, .nodeset right => ∀ nodes,
        siblings heap left = some nodes ∨ siblings heap right = some nodes →
          ∀ n ∈ nodes, Separate heap n
    | .nodeset set, .string _ | .string _, .nodeset set =>
        InTurn heap set fun n => Separate heap n ∧ (heap.get n).type ≠ .empty
    | .nodeset set, _ | _, .nodeset set => InTurn heap set (Countable heap)
    | _, _ => True

/-- The reading of a value that has one, and of the first node of a set; a
boolean counts as one or zero. -/
inductive First (heap : Heap) : RValue Num → Reading Num → Prop where
  | bool (b : Bool) : First heap (.bool b) (.number (Double.ofInt (if b then 1 else 0)))
  | int (n : Int) : First heap (.int n) (.number (Double.ofInt n))
  | number (x : Num) : First heap (.number x) (.number x)
  | string (s : Bytes) : First heap (.string (some s)) (.string s)
  | node {head : NodeId} {s : Bytes} (value : StringValue heap head s) :
      First heap (.nodeset (some head)) (.string s)

/-- The comparison of the first readings as numbers. -/
def FirstReadings (c : Comparison) (heap : Heap) (left right : RValue Num) : Prop :=
  Exists fun a => Exists fun b => First heap left a ∧ First heap right b ∧
    c.numbers a.toNumber b.toNumber = true

/-- When the code answers right.  For `=` and `!=`: a missing attribute is
compared with no boolean but the one that gives false, and no boolean with NaN.
For the others: a missing attribute is on the side where the answer is false
anyhow; a boolean is compared with a boolean, or its number gives the same
answer; otherwise the first readings make the comparison true, or none do. -/
def Faithful (c : Comparison) (heap : Heap) (left right : RValue Num) : Prop :=
  if c.relational then
    match left, right with
    | .null, .null => c = .lt ∨ c = .gt
    | .null, .bool b => b = true ∨ c = .le ∨ c = .gt
    | .bool b, .null => b = true ∨ c = .lt ∨ c = .ge
    | .null, _ => c = .gt ∨ c = .ge
    | _, .null => c = .lt ∨ c = .le
    | .bool _, .bool _ => True
    | .bool a, right => FirstReadings c heap (.bool a) right ↔ c.truths a (truth right) = true
    | left, .bool b => FirstReadings c heap left (.bool b) ↔ c.truths (truth left) b = true
    | left, right => FirstReadings c heap left right ∨ ¬ SomeReadings c heap left right
  else
    match left, right with
    | .null, .bool b | .bool b, .null => b = c.flag
    | .bool _, .number x | .number x, .bool _ => Double.isNan x = false
    | _, _ => True

/-- A definite answer is right where it is what the comparison means. -/
theorem answers_iff {c : Comparison} {heap : Heap} {left right : RValue Num} {answer : Bool}
    (found : c.test heap left right = some answer) :
    Answers c heap left right ↔ (answer = true ↔ Holds c heap left right) := by
  unfold Answers
  rw [found]
  constructor
  · rintro ⟨_, same, right_⟩
    cases same
    exact right_
  · exact fun right_ => ⟨answer, rfl, right_⟩

/-! ## Ordering -/

theorem rvalCompare_numbers {heap : Heap} {left right : RValue Num} (some_ : left ≠ .null)
    (other : right ≠ .null) {x y : Num} (first : rval2number heap left = some x)
    (second : rval2number heap right = some y) :
    rvalCompare heap left right = some (if Double.isNan x ∨ Double.isNan y then none
      else if Double.less x y then some (-1) else if Double.less y x then some 1 else some 0) := by
  have unfolded : rvalCompare heap left right = (do
      let ld ← rval2number heap left
      let rd ← rval2number heap right
      if Double.isNan ld ∨ Double.isNan rd then some none
      else if Double.less ld rd then some (some (-1))
      else if Double.less rd ld then some (some 1)
      else some (some 0)) := by
    cases left <;> cases right <;> first | rfl | exact absurd rfl some_ | exact absurd rfl other
  rw [unfolded, first, second]
  simp only [Option.bind_eq_bind, Option.bind_some]
  repeat' split <;> try rfl

/-- The operators that order compare two numbers. -/
theorem test_numbers [LawfulDouble Num] {c : Comparison} (ordering : c.relational = true)
    {heap : Heap} {left right : RValue Num} (some_ : left ≠ .null) (other : right ≠ .null) {x y : Num}
    (first : rval2number heap left = some x) (second : rval2number heap right = some y) :
    c.test heap left right = some (c.numbers x y) := by
  have compared := rvalCompare_numbers some_ other first second
  by_cases nan : Double.isNan x = true ∨ Double.isNan y = true
  · rw [if_pos nan] at compared
    have unordered := LawfulDouble.unordered x y nan
    have swapped := LawfulDouble.unordered y x nan.symm
    cases c <;> cases ordering
    all_goals
      unfold test
      simp only [rvalLess, rvalLessOrEqual, rvalGreater, rvalGreaterOrEqual, rvalOrdered, compared]
      unfold numbers
      simp only [unordered, swapped]
      rfl
  · rw [if_neg nan] at compared
    simp only [not_or, Bool.not_eq_true] at nan
    have total := LawfulDouble.total x y nan.1 nan.2
    have asymm := LawfulDouble.asymm x y
    have asymm' := LawfulDouble.asymm y x
    cases c <;> cases ordering
    all_goals
      unfold test
      simp only [rvalLess, rvalLessOrEqual, rvalGreater, rvalGreaterOrEqual, rvalOrdered, compared]
      unfold numbers
      rw [total]
      cases less : Double.less x y <;> cases more : Double.less y x <;> simp_all

/-! ## The numbers of nodes -/

omit [Double Num] in
theorem Countable.taken {heap : Heap} {n : NodeId} {below behind : List NodeId}
    (spread : Spread heap n below behind) (countable : Countable heap n) :
    Exists fun own => StringValue heap n own ∧
      node2string heap ((heap.get n).children.getD n) = some own := by
  unfold Countable at countable
  cases first : (heap.get n).children with
  | none =>
      rw [first] at countable
      exact spread.local_iff.mpr countable
  | some child =>
      rw [first] at countable
      rcases countable with ⟨tree, readable⟩
      have walked := spread.down
      rw [first] at walked
      cases walked with
      | cons _ inner outer down onward =>
          have own := StringValue.tree tree spread.down
          have under : Spread heap child inner outer := ⟨down, onward, fun m at_ => spread.bound m
            (List.mem_append_left _ (List.mem_cons_of_mem child at_)), fun m at_ => spread.leaf m
            (List.mem_append_left _ (List.mem_cons_of_mem child at_))⟩
          refine ⟨_, own, ?_⟩
          have whole : textOf heap (child :: (inner ++ outer)) =
              ownText heap child ++ (textOf heap inner ++ textOf heap outer) := by
            rw [← textOf_append]
            rfl
          rw [Option.getD_some, whole]
          rcases readable with element | ⟨text, content, behind_, passed, nothing⟩
          · have notText : (heap.get child).type ≠ .text := by
              intro text
              rw [text] at element
              cases element
            rw [under.node2string_tree element, show ownText heap child = [] from if_neg notText]
            rfl
          · have childless : (heap.get child).children = none :=
              spread.leaf child (List.mem_append_left _ List.mem_cons_self) text
            rw [show heap.links.children child = none from childless] at down
            cases down
            rw [passed.unique onward] at nothing
            rcases Option.ne_none_iff_exists'.mp content with ⟨value, holds⟩
            have leaf : (heap.get child).type.isLeaf = true := by
              rw [text]
              rfl
            have mine : ownText heap child = value := by
              unfold ownText
              rw [if_pos text, holds]
              rfl
            rw [Spread.node2string_leaf leaf, holds, mine, textOf_eq_nil.mpr nothing]
            exact congrArg some (List.append_nil value).symm

/-- The number of a countable node is that of its string-value. -/
theorem Countable.number {heap : Heap} {n : NodeId} {below behind : List NodeId}
    (spread : Spread heap n below behind) (countable : Countable heap n) :
    Exists fun own => StringValue heap n own ∧
      rval2number heap (.nodeset (some n)) = some (textNumber own : Num) := by
  rcases countable.taken spread with ⟨own, value, found⟩
  refine ⟨own, value, ?_⟩
  change (node2string heap _).map textNumber = _
  rw [found]
  rfl

/-- The number of a value is that of its first reading, and NaN for an empty
set. -/
theorem Valid.number [LawfulDouble Num] {heap : Heap} {value : RValue Num}
    (valid : Valid heap value) (some_ : value ≠ .null)
    (countable : ∀ head, value = .nodeset (some head) → Countable heap head) :
    Exists fun x => rval2number heap value = some x ∧
      ((Exists fun a => First heap value a ∧ a.toNumber = x) ∨
        (Double.isNan x = true ∧ ∀ a, ¬ First heap value a)) := by
  cases value with
  | null => exact absurd rfl some_
  | bool b => exact ⟨_, rfl, .inl ⟨_, .bool b, rfl⟩⟩
  | int n => exact ⟨_, rfl, .inl ⟨_, .int n, rfl⟩⟩
  | number x => exact ⟨_, rfl, .inl ⟨_, .number x, rfl⟩⟩
  | string s =>
      cases s with
      | none => exact absurd rfl valid
      | some s => exact ⟨_, rfl, .inl ⟨_, .string s, rfl⟩⟩
  | nodeset set =>
      cases set with
      | none => exact ⟨_, rfl, .inr ⟨LawfulDouble.nan, nofun⟩⟩
      | some head =>
          rcases valid with ⟨nodes, listed, all⟩
          have member : head ∈ nodes := by
            cases (follow_eq_some_iff.mp listed).1 with
            | cons _ rest _ => exact List.mem_cons_self
          rcases all head member with ⟨below, behind, spread⟩
          rcases @Countable.number Num _ heap head below behind spread (countable head rfl) with
            ⟨own, value, found⟩
          exact ⟨_, found, .inl ⟨_, .node value, rfl⟩⟩

theorem First.unique {heap : Heap} {value : RValue Num} {a b : Reading Num}
    (left : First heap value a) (right : First heap value b) : a = b := by
  cases left with
  | bool => cases right; rfl
  | int => cases right; rfl
  | number => cases right; rfl
  | string => cases right; rfl
  | node value =>
      cases right with
      | node value' => rw [value.unique value']

/-- The first readings of values that are not boolean are readings. -/
theorem First.reads {heap : Heap} {value : RValue Num} {a : Reading Num} (valid : Valid heap value)
    (plain : ∀ b, value ≠ .bool b) (first : First heap value a) : ReadsAs heap value a := by
  cases first with
  | bool b => exact absurd rfl (plain b)
  | int n => exact .int n
  | number x => exact .number x
  | string s => exact .string s
  | node value =>
      rcases valid with ⟨nodes, listed, _⟩
      refine .node listed ?_ value
      cases (follow_eq_some_iff.mp listed).1 with
      | cons _ rest _ => exact List.mem_cons_self

/-! ## Relational operators -/

/-- Ordered comparisons with NaN are false. -/
theorem numbers_nan [LawfulDouble Num] {c : Comparison} (ordering : c.relational = true) {x y : Num}
    (nan : Double.isNan x = true ∨ Double.isNan y = true) : c.numbers x y = false := by
  have unordered := LawfulDouble.unordered x y nan
  have swapped := LawfulDouble.unordered y x nan.symm
  cases c <;> cases ordering
  all_goals
    unfold numbers
    simp only [unordered, swapped, Bool.or_false]

section Relational

variable [LawfulDouble Num] {c : Comparison} (ordering : c.relational = true) {heap : Heap}
  {left right : RValue Num} (validLeft : Valid heap left) (validRight : Valid heap right)
  (plain : ∀ head, left = .nodeset (some head) ∨ right = .nodeset (some head) → Countable heap head)
  (some_ : left ≠ .null) (other : right ≠ .null)

include ordering validLeft validRight plain some_ other

/-- The operators that order compare the first readings. -/
theorem test_first : Exists fun answer => c.test heap left right = some answer ∧
    (answer = true ↔ FirstReadings c heap left right) := by
  rcases validLeft.number some_ fun head same => plain head (.inl same) with ⟨x, numberX, first⟩
  rcases validRight.number other fun head same => plain head (.inr same) with ⟨y, numberY, second⟩
  refine ⟨_, test_numbers ordering some_ other numberX numberY, ?_⟩
  by_cases both : (Exists fun a => First heap left a ∧ a.toNumber = x) ∧
      Exists fun b => First heap right b ∧ b.toNumber = y
  · rcases both with ⟨⟨a, firstA, rfl⟩, b, firstB, rfl⟩
    constructor
    · exact fun true_ => ⟨a, b, firstA, firstB, true_⟩
    · rintro ⟨a', b', firstA', firstB', true_⟩
      rw [firstA.unique firstA', firstB.unique firstB']
      exact true_
  · have empty : (Double.isNan x = true ∧ ∀ a, ¬ First heap left a) ∨
        (Double.isNan y = true ∧ ∀ b, ¬ First heap right b) := by
      rcases first with here | here
      · exact .inr (second.resolve_left fun there => both ⟨here, there⟩)
      · exact .inl here
    rw [numbers_nan ordering (empty.imp And.left And.left)]
    refine ⟨nofun, ?_⟩
    rintro ⟨a, b, firstA, firstB, _⟩
    rcases empty with ⟨_, none_⟩ | ⟨_, none_⟩
    · exact absurd firstA (none_ a)
    · exact absurd firstB (none_ b)

/-- The answer is right exactly where the first readings tell it. -/
theorem answers_first :
    Answers c heap left right ↔ (FirstReadings c heap left right ↔ Holds c heap left right) := by
  rcases test_first ordering validLeft validRight plain some_ other with ⟨answer, found, first⟩
  rw [answers_iff found, first]

end Relational

/-- Booleans are ordered as their numbers are. -/
theorem numbers_truths [LawfulDouble Num] {c : Comparison} (ordering : c.relational = true)
    (a b : Bool) : c.numbers (Double.ofInt (if a then 1 else 0) : Num)
      (Double.ofInt (if b then 1 else 0)) = c.truths a b := by
  have less : Double.less (Double.ofInt 0 : Num) (Double.ofInt 1) = true := LawfulDouble.zero_one
  have more := LawfulDouble.asymm _ _ less
  have irreflexive : ∀ x : Num, Double.less x x = false := by
    intro x
    cases found : Double.less x x with
    | false => rfl
    | true => exact (LawfulDouble.asymm x x found).symm.trans found |>.symm
  have total := fun m n : Int => LawfulDouble.total (Double.ofInt m : Num) (Double.ofInt n)
    (LawfulDouble.whole m) (LawfulDouble.whole n)
  cases c <;> cases ordering
  all_goals
    unfold numbers truths
    cases a <;> cases b <;> simp [less, more, irreflexive, total]

/-- Relational operators compare numbers, whatever the readings are. -/
theorem compares_numbers {c : Comparison} (ordering : c.relational = true) (a b : Reading Num) :
    c.compares a b = c.numbers a.toNumber b.toNumber := by
  cases a <;> cases b <;> first | rfl | exact if_pos ordering

theorem FirstReadings.some [LawfulDouble Num] {c : Comparison} (ordering : c.relational = true)
    {heap : Heap} {left right : RValue Num} (validLeft : Valid heap left)
    (validRight : Valid heap right) (plainLeft : ∀ b, left ≠ .bool b) (plainRight : ∀ b, right ≠ .bool b)
    (first : FirstReadings c heap left right) : SomeReadings c heap left right := by
  rcases first with ⟨a, b, firstA, firstB, true_⟩
  refine ⟨a, b, firstA.reads validLeft plainLeft, firstB.reads validRight plainRight, ?_⟩
  rw [compares_numbers ordering]
  exact true_

/-! ### Missing attributes -/

theorem no_reading {c : Comparison} {heap : Heap} {left right : RValue Num}
    (missing : left = .null ∨ right = .null) : ¬ SomeReadings c heap left right := by
  rintro ⟨a, b, first, second, _⟩
  rcases missing with rfl | rfl
  · cases first
  · cases second

theorem test_null (c : Comparison) (heap : Heap) :
    c.test heap (.null : RValue Num) .null = some (decide (c = .le ∨ c = .ge)) := by
  cases c <;> rfl

theorem test_null_left {c : Comparison} (ordering : c.relational = true) (heap : Heap)
    {right : RValue Num} (other : right ≠ .null) :
    c.test heap .null right = some (decide (c = .lt ∨ c = .le)) := by
  have below : rvalCompare heap .null right = some (some (-1)) := by
    cases right <;> first | rfl | exact absurd rfl other
  cases c <;> cases ordering
  all_goals
    unfold test
    simp only [rvalLess, rvalLessOrEqual, rvalGreater, rvalGreaterOrEqual, rvalOrdered, below]
    rfl

theorem test_null_right {c : Comparison} (ordering : c.relational = true) (heap : Heap)
    {left : RValue Num} (some_ : left ≠ .null) :
    c.test heap left .null = some (decide (c = .gt ∨ c = .ge)) := by
  have above : rvalCompare heap left .null = some (some 1) := by
    cases left <;> first | rfl | exact absurd rfl some_
  cases c <;> cases ordering
  all_goals
    unfold test
    simp only [rvalLess, rvalLessOrEqual, rvalGreater, rvalGreaterOrEqual, rvalOrdered, above]
    rfl

theorem answers_relational [LawfulDouble Num] {c : Comparison} (ordering : c.relational = true)
    {heap : Heap} {left right : RValue Num} (validLeft : Valid heap left)
    (validRight : Valid heap right) (plain : Plain c heap left right) :
    Answers c heap left right ↔ Faithful c heap left right := by
  unfold Plain at plain
  rw [if_pos ordering] at plain
  unfold Faithful
  rw [if_pos ordering]
  by_cases leftNull : left = .null
  · subst leftNull
    by_cases rightNull : right = .null
    · subst rightNull
      rw [answers_iff (test_null c heap)]
      have nothing : ¬ Holds c heap (.null : RValue Num) .null := no_reading (.inl rfl)
      cases c <;> cases ordering <;> simp [nothing]
    · rw [answers_iff (test_null_left ordering heap rightNull)]
      cases right with
      | null => exact absurd rfl rightNull
      | bool b => cases c <;> cases ordering <;> cases b <;> simp [Holds, truths, truth]
      | int | number | string | nodeset =>
          have nothing : ∀ value : RValue Num, ¬ SomeReadings c heap .null value := fun _ =>
            no_reading (.inl rfl)
          cases c <;> cases ordering <;> simp [Holds, nothing]
  · by_cases rightNull : right = .null
    · subst rightNull
      rw [answers_iff (test_null_right ordering heap leftNull)]
      cases left with
      | null => exact absurd rfl leftNull
      | bool b => cases c <;> cases ordering <;> cases b <;> simp [Holds, truths, truth]
      | int | number | string | nodeset =>
          have nothing : ∀ value : RValue Num, ¬ SomeReadings c heap value .null := fun _ =>
            no_reading (.inr rfl)
          cases c <;> cases ordering <;> simp [Holds, nothing]
    · rw [answers_first ordering validLeft validRight plain leftNull rightNull]
      by_cases truthLeft : Exists fun a => left = .bool a
      · rcases truthLeft with ⟨a, rfl⟩
        cases right with
        | null => exact absurd rfl rightNull
        | bool b =>
            apply iff_of_true ?_ trivial
            change FirstReadings c heap (.bool a : RValue Num) (.bool b) ↔ c.truths a b = true
            rw [← @numbers_truths Num _ _ c ordering a b]
            constructor
            · rintro ⟨_, _, first, second, true_⟩
              cases first
              cases second
              exact true_
            · exact fun true_ => ⟨_, _, .bool a, .bool b, true_⟩
        | int | number | string | nodeset => exact Iff.rfl
      · by_cases truthRight : Exists fun b => right = .bool b
        · rcases truthRight with ⟨b, rfl⟩
          cases left with
          | null => exact absurd rfl leftNull
          | bool a => exact absurd ⟨a, rfl⟩ truthLeft
          | int | number | string | nodeset => exact Iff.rfl
        · have onward := FirstReadings.some ordering validLeft validRight
            (fun b same => truthLeft ⟨b, same⟩) (fun b same => truthRight ⟨b, same⟩)
          have definite : (FirstReadings c heap left right ↔ SomeReadings c heap left right) ↔
              (FirstReadings c heap left right ∨ ¬ SomeReadings c heap left right) := by
            tauto
          cases left with
          | null => exact absurd rfl leftNull
          | bool a => exact absurd ⟨a, rfl⟩ truthLeft
          | int | number | string | nodeset =>
              cases right with
              | null => exact absurd rfl rightNull
              | bool b => exact absurd ⟨b, rfl⟩ truthRight
              | int | number | string | nodeset => exact definite

/-! ## Equality -/

theorem test_equality {c : Comparison} (equality : c.relational = false) (heap : Heap)
    (left right : RValue Num) : c.test heap left right = rvalEqual heap left right c.flag := by
  cases c <;> first | rfl | cases equality

theorem equal_comm [LawfulDouble Num] (x y : Num) : Double.equal x y = Double.equal y x := by
  by_cases nan : Double.isNan x = true ∨ Double.isNan y = true
  · rw [(LawfulDouble.unordered x y nan).2, (LawfulDouble.unordered y x nan.symm).2]
  · simp only [not_or, Bool.not_eq_true] at nan
    rw [LawfulDouble.total x y nan.1 nan.2, LawfulDouble.total y x nan.2 nan.1, Bool.and_comm]

theorem numbers_equality {c : Comparison} (equality : c.relational = false) (x y : Num) :
    c.numbers x y = (Double.equal x y == c.flag) := by
  cases c <;> cases equality
  all_goals
    unfold numbers flag
    cases Double.equal x y <;> rfl

theorem truths_equality {c : Comparison} (equality : c.relational = false) (a b : Bool) :
    c.truths a b = (decide (a = b) == c.flag) := by
  cases c <;> cases equality <;> cases a <;> cases b <;> rfl

theorem compares_strings {c : Comparison} (equality : c.relational = false) (s t : Bytes) :
    c.compares (.string s : Reading Num) (.string t) = (decide (s = t) == c.flag) := by
  change (if c.relational then _ else _) = _
  rw [equality, if_neg nofun]

theorem compares_comm [LawfulDouble Num] {c : Comparison} (equality : c.relational = false)
    (a b : Reading Num) : c.compares a b = c.compares b a := by
  have swapped : c.numbers a.toNumber b.toNumber = c.numbers b.toNumber a.toNumber := by
    rw [numbers_equality equality, numbers_equality equality, equal_comm]
  cases a with
  | number x => cases b <;> exact swapped
  | string s =>
      cases b with
      | number y => exact swapped
      | string t =>
          rw [compares_strings equality, compares_strings equality, decide_eq_decide.mpr eq_comm]

/-- A loop that stops at the first node that passes. -/
theorem anyM_some {nodes : List NodeId} {test : NodeId → Option Bool} {passes : NodeId → Bool}
    (each : ∀ n ∈ nodes, test n = some (passes n)) : nodes.anyM test = some (nodes.any passes) := by
  induction nodes with
  | nil => rfl
  | cons n rest inductionHypothesis =>
      have later := inductionHypothesis fun m at_ => each m (List.mem_cons_of_mem n at_)
      unfold List.anyM
      rw [each n List.mem_cons_self, later, List.any_cons]
      cases passes n <;> rfl

/-- The nodes that stand for a set are spread as its own nodes are. -/
theorem standIn_spread {heap : Heap} {head : NodeId} {nodes others : List NodeId}
    (all : AllSpread heap nodes) (listed : siblings heap (some head) = some nodes)
    (looked : siblings heap (standIn heap head) = some others) : AllSpread heap others := by
  have member : head ∈ nodes := by
    cases (follow_eq_some_iff.mp listed).1 with
    | cons _ rest _ => exact List.mem_cons_self
  unfold standIn at looked
  split at looked
  · rcases all head member with ⟨below, behind, spread⟩
    intro n at_
    rcases spread.down.part (follow_eq_some_iff.mp looked).1 at_ with
      ⟨inner, outer, down, onward, subset⟩
    exact ⟨inner, outer, down, onward, fun m there => spread.bound m
      (List.mem_append_left _ (subset there)), fun m there => spread.leaf m
      (List.mem_append_left _ (subset there))⟩
  · rw [listed] at looked
    cases looked
    exact all

/-- One round of the loop of `nodeset_equal_common`. -/
def commonRound (heap : Heap) (value : RValue Num) (eq : Bool) (p : NodeId) : Option Bool :=
  match value with
  | .number a => do some (Double.equal a (← rval2number heap (.nodeset (some p))) == eq)
  | .int a => do
      some (Double.equal (Double.ofInt a) (← rval2number heap (.nodeset (some p) : RValue Num)) == eq)
  | .string a => do
      some (decide (a = (← rval2string heap (.nodeset (some p) : RValue Num))) == eq)
  | _ => some false

theorem nodesetEqualCommon_head (heap : Heap) (value : RValue Num) (head : NodeId) (eq : Bool) :
    nodesetEqualCommon heap value (some head) eq =
      (siblings heap (standIn heap head)).bind fun nodes =>
        nodes.anyM (commonRound heap value eq) := by
  cases value <;> rfl

/-- A round compares with the string-value of a good node. -/
def Compared (c : Comparison) (heap : Heap) (value : RValue Num) (reading : Reading Num)
    (good : NodeId → Prop) : Prop :=
  ∀ n below behind, Spread heap n below behind → good n → Exists fun own =>
    StringValue heap n own ∧
      commonRound heap value c.flag n = some (c.compares reading (.string own))

theorem compared_string {c : Comparison} (equality : c.relational = false) (heap : Heap) (s : Bytes) :
    Compared c heap (.string (some s) : RValue Num) (.string s) fun n =>
      Separate heap n ∧ (heap.get n).type ≠ .empty := by
  rintro n below behind spread ⟨separate, notRoot⟩
  rcases spread.local_iff.mpr separate with ⟨own, value, found⟩
  refine ⟨own, value, ?_⟩
  have string : rval2string heap (.nodeset (some n) : RValue Num) = some (some own) := by
    change (if (heap.get n).type = .empty then _ else _) = _
    rw [if_neg notRoot, found]
    rfl
  rw [compares_strings equality]
  unfold commonRound
  rw [string]
  simp only [Option.bind_eq_bind, Option.bind_some, Option.some.injEq]

theorem compared_number {c : Comparison} (equality : c.relational = false) (heap : Heap)
    {value : RValue Num} {x : Num}
    (round : ∀ p, commonRound heap value c.flag p = (do
      some (Double.equal x (← rval2number heap (.nodeset (some p))) == c.flag))) :
    Compared c heap value (.number x) (Countable heap) := by
  intro n below behind spread countable
  rcases @Countable.number Num _ heap n below behind spread countable with ⟨own, value, found⟩
  refine ⟨own, value, ?_⟩
  rw [round, found]
  exact congrArg some (numbers_equality equality x (textNumber own)).symm

/-- The loop of `nodeset_equal_common` over a set. -/
theorem nodesetEqualCommon_some {c : Comparison} {heap : Heap} {value : RValue Num}
    {reading : Reading Num} {good : NodeId → Prop} (compared : Compared c heap value reading good)
    {set : Ptr} {nodes : List NodeId} (listed : siblings heap set = some nodes)
    (all : AllSpread heap nodes) (turn : InTurn heap set good) :
    Exists fun answer => nodesetEqualCommon heap value set c.flag = some answer ∧
      (answer = true ↔ Exists fun n => Exists fun s => n ∈ nodes ∧ StringValue heap n s ∧
        c.compares reading (.string s) = true) := by
  cases set with
  | none =>
      have nothing : nodes = [] := (follow_eq_some_iff.mp listed).1.unique .nil
      refine ⟨false, rfl, nofun, ?_⟩
      rintro ⟨n, _, member, _⟩
      rw [nothing] at member
      cases member
  | some head =>
      rcases turn head nodes rfl listed with ⟨others, looked, goods, same⟩
      have rounds : ∀ n ∈ others, Exists fun own => StringValue heap n own ∧
          commonRound heap value c.flag n = some (c.compares reading (.string own)) := by
        intro n at_
        rcases standIn_spread all listed looked n at_ with ⟨below, behind, spread⟩
        exact compared n below behind spread (goods n at_)
      choose! own holds round using rounds
      refine ⟨others.any fun n => c.compares reading (.string (own n)), ?_, ?_⟩
      · rw [nodesetEqualCommon_head, looked, Option.bind_some]
        exact anyM_some round
      · rw [List.any_eq_true]
        constructor
        · rintro ⟨n, at_, true_⟩
          rcases (same (own n)).mp ⟨n, at_, holds n at_⟩ with ⟨m, member, value⟩
          exact ⟨m, own n, member, value, true_⟩
        · rintro ⟨m, s, member, value, true_⟩
          rcases (same s).mpr ⟨m, member, value⟩ with ⟨n, at_, value'⟩
          refine ⟨n, at_, ?_⟩
          rw [(holds n at_).unique value']
          exact true_

/-- The loops of `rval_equal` over two sets. -/
theorem rvalEqual_sets {c : Comparison} (equality : c.relational = false) {heap : Heap}
    {left right : Ptr} (validLeft : Valid heap (.nodeset left : RValue Num))
    (validRight : Valid heap (.nodeset right : RValue Num))
    (separate : ∀ nodes, siblings heap left = some nodes ∨ siblings heap right = some nodes →
      ∀ n ∈ nodes, Separate heap n) :
    Exists fun answer => rvalEqual heap (.nodeset left : RValue Num) (.nodeset right) c.flag =
      some answer ∧
      (answer = true ↔ SomeReadings c heap (.nodeset left : RValue Num) (.nodeset right)) := by
  rcases validLeft with ⟨first, listedFirst, allFirst⟩
  rcases validRight with ⟨second, listedSecond, allSecond⟩
  have takes : ∀ nodes, AllSpread heap nodes → (∀ n ∈ nodes, Separate heap n) →
      ∀ n ∈ nodes, Local heap n := by
    intro nodes all good n at_
    rcases all n at_ with ⟨below, behind, spread⟩
    exact spread.local_iff.mpr (good n at_)
  have takesFirst := takes first allFirst (separate first (.inl listedFirst))
  have takesSecond := takes second allSecond (separate second (.inr listedSecond))
  unfold Local at takesFirst takesSecond
  choose! l holdsL stringL using takesFirst
  choose! r holdsR stringR using takesSecond
  refine ⟨first.any fun n => second.any fun m => decide (l n = r m) == c.flag, ?_, ?_⟩
  · unfold rvalEqual
    simp only [listedFirst, listedSecond, Option.bind_eq_bind, Option.bind_some]
    apply anyM_some
    intro n at_
    rw [stringL n at_, Option.bind_some]
    apply anyM_some
    intro m there
    rw [stringR m there, Option.bind_some]
  · simp only [List.any_eq_true]
    constructor
    · rintro ⟨n, at_, m, there, true_⟩
      refine ⟨_, _, .node listedFirst at_ (holdsL n at_), .node listedSecond there (holdsR m there), ?_⟩
      rw [compares_strings equality]
      exact true_
    · rintro ⟨_, _, readL, readR, true_⟩
      cases readL with
      | node listed at_ value =>
          rw [listedFirst] at listed
          cases listed
          cases readR with
          | node listed' there value' =>
              rw [listedSecond] at listed'
              cases listed'
              rw [compares_strings equality, value.unique (holdsL _ at_),
                value'.unique (holdsR _ there)] at true_
              exact ⟨_, at_, _, there, true_⟩

/-- A value with one reading against a set. -/
theorem someReadings_set {c : Comparison} {heap : Heap} {value : RValue Num} {reading : Reading Num}
    (reads : ∀ a, ReadsAs heap value a ↔ a = reading) {set : Ptr} {nodes : List NodeId}
    (listed : siblings heap set = some nodes) :
    SomeReadings c heap value (.nodeset set) ↔ Exists fun n => Exists fun s => n ∈ nodes ∧
      StringValue heap n s ∧ c.compares reading (.string s) = true := by
  constructor
  · rintro ⟨a, b, first, second, true_⟩
    rw [(reads a).mp first] at true_
    cases second with
    | node listed' member value =>
        rw [listed] at listed'
        cases listed'
        exact ⟨_, _, member, value, true_⟩
  · rintro ⟨n, s, member, value, true_⟩
    exact ⟨reading, _, (reads _).mpr rfl, .node listed member value, true_⟩

theorem someReadings_comm [LawfulDouble Num] {c : Comparison} (equality : c.relational = false)
    {heap : Heap} {left right : RValue Num} :
    SomeReadings c heap left right ↔ SomeReadings c heap right left := by
  constructor <;>
  · rintro ⟨a, b, first, second, true_⟩
    rw [compares_comm equality] at true_
    exact ⟨b, a, second, first, true_⟩

/-- Two values with one reading each. -/
theorem someReadings_single {c : Comparison} {heap : Heap} {left right : RValue Num}
    {a b : Reading Num} (first : ∀ r, ReadsAs heap left r ↔ r = a)
    (second : ∀ r, ReadsAs heap right r ↔ r = b) :
    SomeReadings c heap left right ↔ c.compares a b = true := by
  constructor
  · rintro ⟨a', b', readA, readB, true_⟩
    rwa [(first a').mp readA, (second b').mp readB] at true_
  · exact fun true_ => ⟨a, b, (first a).mpr rfl, (second b).mpr rfl, true_⟩

theorem reads_int (heap : Heap) (n : Int) (a : Reading Num) :
    ReadsAs heap (.int n) a ↔ a = .number (Double.ofInt n) := by
  constructor
  · rintro ⟨⟩
    rfl
  · rintro rfl
    exact .int n

theorem reads_number (heap : Heap) (x : Num) (a : Reading Num) :
    ReadsAs heap (.number x) a ↔ a = .number x := by
  constructor
  · rintro ⟨⟩
    rfl
  · rintro rfl
    exact .number x

theorem reads_string (heap : Heap) (s : Bytes) (a : Reading Num) :
    ReadsAs heap (.string (some s)) a ↔ a = .string s := by
  constructor
  · rintro ⟨⟩
    rfl
  · rintro rfl
    exact .string s

/-- The boolean value of everything but NaN. -/
theorem rval2bool_truth {heap : Heap} {value : RValue Num} (valid : Valid heap value)
    (number : ∀ x, value = .number x → Double.isNan x = false) : rval2bool value = truth value := by
  cases value with
  | number x =>
      change (!_) = (!_ && !_)
      rw [number x rfl, Bool.not_false, Bool.and_true]
  | string s =>
      cases s with
      | none => exact absurd rfl valid
      | some s => rfl
  | null | bool | int | nodeset => rfl

/-- A boolean against a value that is not missing. -/
theorem rvalEqual_bool (heap : Heap) (a : Bool) {value : RValue Num} (some_ : value ≠ .null)
    (flag : Bool) :
    rvalEqual heap (.bool a) value flag = some (decide (a = rval2bool value) == flag) ∧
      rvalEqual heap value (.bool a) flag = some (decide (rval2bool value = a) == flag) := by
  cases value <;> first | exact ⟨rfl, rfl⟩ | exact absurd rfl some_

/-- The boolean value of NaN is taken for true. -/
theorem rval2bool_nan [LawfulDouble Num] {x : Num} (nan : Double.isNan x = true) :
    rval2bool (.number x) = true ∧ truth (.number x) = false := by
  constructor
  · change (!_) = true
    rw [(LawfulDouble.unordered x (Double.ofInt 0) (.inl nan)).2]
    rfl
  · change (!_ && !_) = false
    rw [nan, Bool.not_true, Bool.and_false]

section Equality

variable [LawfulDouble Num] {c : Comparison} (equality : c.relational = false) {heap : Heap}

include equality

omit [LawfulDouble Num] in
theorem answers_of_equal {left right : RValue Num} {answer : Bool}
    (equal : rvalEqual heap left right c.flag = some answer) :
    Answers c heap left right ↔ (answer = true ↔ Holds c heap left right) :=
  answers_iff ((test_equality equality heap left right).trans equal)

/-- A boolean against another value is right but for NaN. -/
theorem answers_bool {a : Bool} {value : RValue Num} (valid : Valid heap value)
    (some_ : value ≠ .null) :
    (Answers c heap (.bool a) value ↔ ∀ x, value = .number x → Double.isNan x = false) ∧
      ((∀ b, value ≠ .bool b) →
        (Answers c heap value (.bool a) ↔ ∀ x, value = .number x → Double.isNan x = false)) := by
  have equal := rvalEqual_bool heap a some_ c.flag
  have right_ : (∀ b, value ≠ .bool b) →
      (Holds c heap value (.bool a) ↔ c.truths (truth value) a = true) := by
    intro plain
    cases value with
    | bool b => exact absurd rfl (plain b)
    | null | int | number | string | nodeset => exact Iff.rfl
  have left_ : Holds c heap (.bool a) value ↔ c.truths a (truth value) = true := Iff.rfl
  by_cases whole : ∀ x, value = .number x → Double.isNan x = false
  · have same := rval2bool_truth valid whole
    constructor
    · rw [answers_of_equal equality equal.1, left_, truths_equality equality, same]
      exact iff_of_true Iff.rfl whole
    · intro plain
      rw [answers_of_equal equality equal.2, right_ plain, truths_equality equality, same]
      exact iff_of_true Iff.rfl whole
  · have nan : Exists fun x => value = .number x ∧ Double.isNan x = true := by
      simpa only [not_forall, Bool.not_eq_false, exists_prop] using whole
    rcases nan with ⟨x, rfl, nan⟩
    have values := rval2bool_nan nan
    constructor
    · rw [answers_of_equal equality equal.1, left_, truths_equality equality, values.1, values.2]
      apply iff_of_false _ whole
      cases a <;> cases c.flag <;> decide
    · intro plain
      rw [answers_of_equal equality equal.2, right_ plain, truths_equality equality, values.1, values.2]
      apply iff_of_false _ whole
      cases a <;> cases c.flag <;> decide

/-- A value with one reading against a set, on either side. -/
theorem answers_set {value : RValue Num} {reading : Reading Num} {good : NodeId → Prop}
    (reads : ∀ a, ReadsAs heap value a ↔ a = reading)
    (compared : Compared c heap value reading good) {set : Ptr}
    (valid : Valid heap (.nodeset set : RValue Num)) (turn : InTurn heap set good)
    (loop : rvalEqual heap value (.nodeset set) c.flag = nodesetEqualCommon heap value set c.flag ∧
      rvalEqual heap (.nodeset set) value c.flag = nodesetEqualCommon heap value set c.flag)
    (meaning : (Holds c heap value (.nodeset set) ↔ SomeReadings c heap value (.nodeset set)) ∧
      (Holds c heap (.nodeset set) value ↔ SomeReadings c heap (.nodeset set) value)) :
    Answers c heap value (.nodeset set) ∧ Answers c heap (.nodeset set) value := by
  rcases valid with ⟨nodes, listed, all⟩
  rcases nodesetEqualCommon_some compared listed all turn with ⟨answer, found, true_⟩
  rw [← someReadings_set reads listed] at true_
  constructor
  · rw [answers_of_equal equality (loop.1.trans found), true_, meaning.1]
  · rw [answers_of_equal equality (loop.2.trans found), true_, meaning.2, someReadings_comm equality]

/-- Two values with one reading each, not both strings. -/
theorem answers_numbers {left right : RValue Num} {a b : Reading Num}
    (first : ∀ r, ReadsAs heap left r ↔ r = a) (second : ∀ r, ReadsAs heap right r ↔ r = b)
    (numbers : c.compares a b = c.numbers a.toNumber b.toNumber)
    (equal : rvalEqual heap left right c.flag =
      some (Double.equal a.toNumber b.toNumber == c.flag))
    (meaning : Holds c heap left right ↔ SomeReadings c heap left right) :
    Answers c heap left right := by
  rw [answers_of_equal equality equal, meaning, someReadings_single first second, numbers,
    numbers_equality equality]

theorem answers_equality {left right : RValue Num} (validLeft : Valid heap left)
    (validRight : Valid heap right) (plain : Plain c heap left right) :
    Answers c heap left right ↔ Faithful c heap left right := by
  have missing : ∀ {left right : RValue Num}, left = .null ∨ right = .null →
      rvalEqual heap left right c.flag = some false := by
    rintro left right (rfl | rfl)
    · rfl
    · cases left <;> rfl
  have nothing : ∀ {left right : RValue Num}, left = .null ∨ right = .null →
      (Holds c heap left right ↔ SomeReadings c heap left right) →
      (Answers c heap left right ↔ True) := by
    intro left right null meaning
    rw [answers_of_equal equality (missing null), meaning]
    exact iff_of_true (iff_of_false nofun (no_reading null)) trivial
  have flag : ∀ b, (false = true ↔ c.truths false b = true) ↔ b = c.flag := by
    intro b
    rw [truths_equality equality]
    cases b <;> cases c.flag <;> decide
  have flag' : ∀ b, (false = true ↔ c.truths b false = true) ↔ b = c.flag := by
    intro b
    rw [truths_equality equality]
    cases b <;> cases c.flag <;> decide
  unfold Plain at plain
  rw [equality, if_neg nofun] at plain
  unfold Faithful
  rw [equality, if_neg nofun]
  cases left with
  | null =>
      cases right with
      | bool b =>
          rw [answers_of_equal equality (missing (.inl rfl))]
          exact flag b
      | null | int | number | string | nodeset => exact nothing (.inl rfl) Iff.rfl
  | bool a =>
      cases right with
      | null =>
          rw [answers_of_equal equality (missing (.inr rfl))]
          exact flag' a
      | number x =>
          rw [(answers_bool equality validRight nofun).1]
          exact ⟨fun whole => whole x rfl, fun whole _ same => by cases same; exact whole⟩
      | bool | int | string | nodeset =>
          rw [(answers_bool equality validRight nofun).1]
          exact iff_of_true nofun trivial
  | int n =>
      cases right with
      | null => exact nothing (.inr rfl) Iff.rfl
      | bool b =>
          rw [(answers_bool equality validLeft nofun).2 nofun]
          exact iff_of_true nofun trivial
      | int m =>
          apply iff_of_true _ trivial
          exact answers_numbers equality (reads_int heap n) (reads_int heap m) rfl rfl Iff.rfl
      | number y =>
          apply iff_of_true _ trivial
          exact answers_numbers equality (reads_int heap n) (reads_number heap y) rfl rfl Iff.rfl
      | string s =>
          apply iff_of_true _ trivial
          cases s with
          | none => exact absurd rfl validRight
          | some s =>
              exact answers_numbers equality (reads_int heap n) (reads_string heap s) rfl rfl Iff.rfl
      | nodeset set =>
          apply iff_of_true _ trivial
          exact (answers_set equality (reads_int heap n)
            (compared_number equality heap fun _ => rfl) validRight plain ⟨rfl, rfl⟩
            ⟨Iff.rfl, Iff.rfl⟩).1
  | number x =>
      cases right with
      | null => exact nothing (.inr rfl) Iff.rfl
      | bool b =>
          rw [(answers_bool equality validLeft nofun).2 nofun]
          exact ⟨fun whole => whole x rfl, fun whole _ same => by cases same; exact whole⟩
      | int m =>
          apply iff_of_true _ trivial
          exact answers_numbers equality (reads_number heap x) (reads_int heap m) rfl rfl Iff.rfl
      | number y =>
          apply iff_of_true _ trivial
          exact answers_numbers equality (reads_number heap x) (reads_number heap y) rfl rfl Iff.rfl
      | string s =>
          apply iff_of_true _ trivial
          cases s with
          | none => exact absurd rfl validRight
          | some s =>
              exact answers_numbers equality (reads_number heap x) (reads_string heap s) rfl rfl
                Iff.rfl
      | nodeset set =>
          apply iff_of_true _ trivial
          exact (answers_set equality (reads_number heap x)
            (compared_number equality heap fun _ => rfl) validRight plain ⟨rfl, rfl⟩
            ⟨Iff.rfl, Iff.rfl⟩).1
  | string s =>
      cases s with
      | none => exact absurd rfl validLeft
      | some s =>
          have reads := @reads_string Num _ heap s
          cases right with
          | null => exact nothing (.inr rfl) Iff.rfl
          | bool b =>
              rw [(answers_bool equality validLeft nofun).2 nofun]
              exact iff_of_true nofun trivial
          | int m =>
              apply iff_of_true _ trivial
              exact answers_numbers equality reads (reads_int heap m) rfl rfl Iff.rfl
          | number y =>
              apply iff_of_true _ trivial
              exact answers_numbers equality reads (reads_number heap y) rfl rfl Iff.rfl
          | string t =>
              apply iff_of_true _ trivial
              cases t with
              | none => exact absurd rfl validRight
              | some t =>
                  have equal : rvalEqual heap (.string (some s) : RValue Num) (.string (some t))
                      c.flag = some (decide (s = t) == c.flag) := by
                    change some (decide (some s = some t) == c.flag) = _
                    rw [decide_eq_decide.mpr Option.some_inj]
                  rw [answers_of_equal equality equal]
                  change _ ↔ SomeReadings c heap (.string (some s) : RValue Num) (.string (some t))
                  rw [someReadings_single reads (reads_string heap t), compares_strings equality]
          | nodeset set =>
              apply iff_of_true _ trivial
              exact (answers_set equality reads (compared_string equality heap s) validRight plain
                ⟨rfl, rfl⟩ ⟨Iff.rfl, Iff.rfl⟩).1
  | nodeset set =>
      cases right with
      | null => exact nothing (.inr rfl) Iff.rfl
      | bool b =>
          rw [(answers_bool equality validLeft nofun).2 nofun]
          exact iff_of_true nofun trivial
      | int m =>
          apply iff_of_true _ trivial
          exact (answers_set equality (reads_int heap m)
            (compared_number equality heap fun _ => rfl) validLeft plain ⟨rfl, rfl⟩
            ⟨Iff.rfl, Iff.rfl⟩).2
      | number y =>
          apply iff_of_true _ trivial
          exact (answers_set equality (reads_number heap y)
            (compared_number equality heap fun _ => rfl) validLeft plain ⟨rfl, rfl⟩
            ⟨Iff.rfl, Iff.rfl⟩).2
      | string t =>
          apply iff_of_true _ trivial
          cases t with
          | none => exact absurd rfl validRight
          | some t =>
              exact (answers_set equality (reads_string heap t) (compared_string equality heap t)
                validLeft plain ⟨rfl, rfl⟩ ⟨Iff.rfl, Iff.rfl⟩).2
      | nodeset other =>
          apply iff_of_true _ trivial
          rcases rvalEqual_sets equality validLeft validRight plain with ⟨answer, found, true_⟩
          rw [answers_of_equal equality found]
          exact true_

end Equality

/-! ## Evaluation -/

omit [Double Num] in
/-- What location paths yield is valid. -/
theorem Valid.found {env : Env Num} {after : Heap} {inside region grown : NodeId → Prop}
    {set : Ptr} {nodes : List NodeId}
    (found : Found env after inside region grown (.nodeset set) nodes) :
    Valid after (.nodeset set : RValue Num) :=
  ⟨nodes, found.listed, found.setting.closed.allSpread (follow_eq_some_iff.mp found.listed).1
    found.inRegion⟩

theorem executeNode_comparison (env : Env Num) (depth : Nat) {c : Comparison} {head : ExprNode}
    (type : head.type = c.type) (children next : Expr) :
    xpathExecuteScalar env depth (.node head children next) =
      compare c.test (operandsAt env depth children) := by
  rw [xpathExecuteScalar_node]
  funext current heap
  unfold executeNode
  rw [type]
  cases c <;> rfl

end Comparison

/-- Whole numbers and NaN in the place of `double`, enough for concrete runs. -/
instance : Double (Option Int) where
  ofInt := some
  strtod := fun text => some (Double.strtod text)
  nan := none
  isNan := Option.isNone
  add := fun left right => do some ((← left) + (← right))
  sub := fun left right => do some ((← left) - (← right))
  mul := fun left right => do some ((← left) * (← right))
  div := fun left right => do some ((← left) / (← right))
  mod := fun left right => do some (← Double.mod (← left) (← right))
  equal
    | some left, some right => decide (left = right)
    | _, _ => false
  less
    | some left, some right => decide (left < right)
    | _, _ => false
  print := fun number => (number.map Double.print).getD (lit "nan")

instance : LawfulDouble (Option Int) where
  nan := rfl
  whole := fun _ => rfl
  unordered := by
    intro a b nan
    cases a with
    | none => exact ⟨rfl, rfl⟩
    | some a =>
        cases b with
        | none => exact ⟨rfl, rfl⟩
        | some b => rcases nan with impossible | impossible <;> cases impossible
  total := by
    intro a b wholeA wholeB
    cases a with
    | none => cases wholeA
    | some a =>
        cases b with
        | none => cases wholeB
        | some b =>
            change decide (a = b) = (!decide (a < b) && !decide (b < a))
            rw [← decide_not, ← decide_not, ← Bool.decide_and, decide_eq_decide]
            omega
  asymm := by
    intro a b less
    cases a with
    | none => cases less
    | some a =>
        cases b with
        | none => cases less
        | some b => exact decide_eq_false (Int.not_lt.mpr (Int.le_of_lt (of_decide_eq_true less)))
  zero_one := rfl

/-- Two elements with numbers, and the memory once `*` has been evaluated. -/
def twoNumbers : Bytes := lit "<r><a>3</a><a>7</a></r>"

def twoNumbersSelected : Heap := (newSelection (memoryAfter 60 twoNumbers) [(2, 1), (4, 2)]).1

/-- `*` compared with five. -/
def childrenAndFive : Expr :=
  .node { type := .all } .null (.leaf { type := .int, integer := 5 })

theorem twoNumbers_operands :
    evalBoth (operandsAt (Env.bare (Option Int) 0) 0 childrenAndFive) 1 (memoryAfter 60 twoNumbers) =
      some (.nodeset (some 6), .int 5, twoNumbersSelected) := rfl

theorem twoNumbers_valid :
    Comparison.Valid twoNumbersSelected (.nodeset (some 6) : RValue (Option Int)) := by
  have parsed : DoParse .empty twoNumbers (some 0) (memoryAfter 60 twoNumbers) := ⟨60, rfl⟩
  have root : Made 0 (memoryAfter 60 twoNumbers) 0 := by
    refine ⟨Nat.le_refl 0, ?_, ?_⟩ <;> decide
  have setting : Setting (Env.bare (Option Int) 0) (memoryAfter 60 twoNumbers)
      (Made 0 (memoryAfter 60 twoNumbers)) (From 0 (memoryAfter 60 twoNumbers)) :=
    (DoParse.region parsed).setting (.refl _) root nofun
  have stays := (Path.first .all trivial false).stays (Env.bare (Option Int) 0) 0
  have element : From 0 (memoryAfter 60 twoNumbers) 1 := by
    refine ⟨Nat.zero_le 1, ?_⟩
    decide
  rcases @Stays.found _ _ _ stays _ twoNumbersSelected _ _ 1 (.nodeset (some 6)) setting element rfl with
    ⟨grown, nodes, found⟩
  exact .found found

theorem twoNumbers_countable : Comparison.Countable twoNumbersSelected 6 := by
  have child : (twoNumbersSelected.get 6).children = some 3 := by decide
  have alone : (twoNumbersSelected.get 3).next = none := by decide
  unfold Comparison.Countable
  rw [child]
  refine ⟨by decide, .inr ⟨by decide, by decide, [], ?_, nofun⟩⟩
  rw [alone]
  exact .nil

end TurboXSL
