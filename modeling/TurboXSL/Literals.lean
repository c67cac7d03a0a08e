import Mathlib.Algebra.Order.Field.Rat
import Mathlib.Data.Rat.Floor
import Mathlib.Data.Rat.Cast.Order
import Mathlib.Tactic.Positivity
import Mathlib.Tactic.Ring
import TurboXSL.Reparsing
import TurboXSL.XPathExec

namespace TurboXSL

open Library

/-!
# Numbers as they are written

`do_node2_expr` makes an integer of a number without a point and a text of one
with a point, which is then compared as a text and counts as true in a
predicate.  A point in front is no point for it: it looks for one behind the
first character only, so that `atol` reads `.5` and finds zero.
-/

/-! ## Literals -/

structure Digits where
  bytes : Bytes
  nonempty : bytes ≠ []
  all : ∀ c ∈ bytes, isDigit c = true

/-- `[-] digits`, `[-] digits . digits` and `[-] . digits`, with an integer
part that fits a `long`. -/
inductive Literal where
  | whole (negative : Bool) (digits : Digits) (small : digitsValue 10 digits.bytes < 2 ^ 63)
  | point (negative : Bool) (digits : Digits) (small : digitsValue 10 digits.bytes < 2 ^ 63)
      (behind : Digits)
  | fraction (negative : Bool) (behind : Digits)

/-- The digits behind a point. -/
def Digits.fractionValue (digits : Digits) : ℚ :=
  digitsValue 10 digits.bytes / 10 ^ digits.bytes.length

namespace Literal

def sign (negative : Bool) : Bytes := if negative then ['-'.toUInt8] else []

def spelling : Literal → Bytes
  | .whole negative digits _ => sign negative ++ digits.bytes
  | .point negative digits _ behind =>
      sign negative ++ (digits.bytes ++ '.'.toUInt8 :: behind.bytes)
  | .fraction negative behind => sign negative ++ '.'.toUInt8 :: behind.bytes

/-- The number that is meant. -/
def value : Literal → ℚ
  | .whole negative digits _ =>
      (if negative then -1 else 1) * (digitsValue 10 digits.bytes : ℚ)
  | .point negative digits _ behind =>
      (if negative then -1 else 1) * (digitsValue 10 digits.bytes + behind.fractionValue)
  | .fraction negative behind => (if negative then -1 else 1) * behind.fractionValue

/-- The literals that become integers. -/
def Integral : Literal → Prop
  | .whole _ _ _ => True
  | .point _ _ _ _ => False
  | .fraction negative _ => negative = false

/-- The literals that become the integers they mean: those without a point,
and zeros behind one in front. -/
def Whole : Literal → Prop
  | .whole _ _ _ => True
  | .point _ _ _ _ => False
  | .fraction negative behind => negative = false ∧ ∀ c ∈ behind.bytes, c = '0'.toUInt8

/-- The integer that a literal becomes. -/
def integer : Literal → Int
  | .whole negative digits _ => (if negative then -1 else 1) * (digitsValue 10 digits.bytes : Int)
  | _ => 0

instance : DecidablePred Integral
  | .whole _ _ _ => isTrue trivial
  | .point _ _ _ _ => isFalse id
  | .fraction negative _ => inferInstanceAs (Decidable (negative = false))

/-- What the literal is compiled to. -/
def tree (literal : Literal) : Expr :=
  if literal.Integral then .leaf { type := .int, integer := literal.integer }
  else .leaf { type := .text, content := literal.spelling }

theorem tree_of_integral {literal : Literal} (integral : literal.Integral) :
    literal.tree = .leaf { type := .int, integer := literal.integer } := if_pos integral

theorem tree_of_not_integral {literal : Literal} (text : ¬ literal.Integral) :
    literal.tree = .leaf { type := .text, content := literal.spelling } := if_neg text

end Literal

/-! ## Compilation -/

theorem Digits.eq_cons (digits : Digits) : Exists fun c => Exists fun rest =>
    digits.bytes = c :: rest ∧ isDigit c = true ∧ ∀ b ∈ rest, isDigit b = true := by
  cases split : digits.bytes with
  | nil => exact absurd split digits.nonempty
  | cons c rest =>
      have all := digits.all
      rw [split] at all
      exact ⟨c, rest, rfl, all c List.mem_cons_self, fun b member =>
        all b (List.mem_cons_of_mem c member)⟩

/-- Behind its digits a number may have a point. -/
theorem numberExpr_point (c : UInt8) {digits behind rest : Bytes}
    (front : ∀ b ∈ digits, isDigit b = true) (back : ∀ b ∈ behind, isDigit b = true)
    (stop : xIsNamechar (byteAt rest) = false) :
    numberExpr (c :: ((digits ++ '.'.toUInt8 :: behind) ++ rest)) =
      some (.leaf { type := .text, content := c :: (digits ++ '.'.toUInt8 :: behind) },
        skipSpaces rest) := by
  have ends := no_digit_of_no_namechar stop
  have mark : isDigit '.'.toUInt8 = false := by decide
  have first := @span_append _ _ ('.'.toUInt8 :: (behind ++ rest)) front (.inr mark)
  have second := span_append back (.inr ends.1)
  have whole : (digits ++ '.'.toUInt8 :: behind) ++ rest =
      digits ++ '.'.toUInt8 :: (behind ++ rest) := by
    rw [List.append_assoc, List.cons_append]
  have point : byteAt ('.'.toUInt8 :: (behind ++ rest)) = '.'.toUInt8 := rfl
  rw [whole]
  unfold numberExpr
  simp only [List.tail_cons, first.1, first.2, point, if_true, second.1, second.2]
  rfl

/-- The sign of a number, for `atol`. -/
theorem atol_negative {digits : Bytes} (all : ∀ c ∈ digits, isDigit c = true)
    (small : digitsValue 10 digits < 2 ^ 63) :
    atol ('-'.toUInt8 :: digits) = -(digitsValue 10 digits : Int) := by
  have whole := digitsAt_digits all
  have space : isSpace '-'.toUInt8 = false := by decide
  have start : ('-'.toUInt8 :: digits).dropWhile isSpace = '-'.toUInt8 :: digits := by
    rw [List.dropWhile_cons, space]
    rfl
  have here : byteAt ('-'.toUInt8 :: digits) = '-'.toUInt8 := rfl
  unfold atol
  simp only [start, here, true_or, if_true, List.tail_cons, whole]
  omega

/-- `atol` reads no number behind a point. -/
theorem atol_point (digits : Bytes) : atol ('.'.toUInt8 :: digits) = 0 := rfl

/-- What begins with a digit, a sign or a point, and is taken for a number. -/
theorem Atom.ofNumber {c : UInt8} {text : Bytes} {tree : Expr}
    (first : isDigit c = true ∨ c = '-'.toUInt8 ∨ c = '.'.toUInt8)
    (can : ∀ rest, xCanNumber (c :: (text ++ rest)) = true)
    (reads : ∀ rest, xIsNamechar (byteAt rest) = false →
      numberExpr (c :: (text ++ rest)) = some (tree, skipSpaces rest)) : Atom (c :: text) tree := by
  refine .number ?_ can reads
  rcases first with digit | rfl | rfl
  · have known := isDigit_spec digit
    exact ⟨known.2.2.2.2.2.2.1, known.2.2.2.2.2.2.2.2.2.2, known.2.2.2.2.2.2.2.1,
      known.2.2.2.2.2.2.2.2.1, known.2.2.2.2.2.2.2.2.2.1⟩
  · exact ⟨by decide, by decide, by decide, by decide, by decide⟩
  · exact ⟨by decide, by decide, by decide, by decide, by decide⟩

namespace Literal

variable (literal : Literal)

theorem begins : Exists fun c => Exists fun text =>
    literal.spelling = c :: text ∧ (isDigit c = true ∨ c = '-'.toUInt8 ∨ c = '.'.toUInt8) := by
  cases literal with
  | whole negative digits small =>
      rcases digits.eq_cons with ⟨c, rest, shape, first, _⟩
      cases negative with
      | false => exact ⟨c, rest, shape, .inl first⟩
      | true => exact ⟨'-'.toUInt8, digits.bytes, rfl, .inr (.inl rfl)⟩
  | point negative digits small behind =>
      rcases digits.eq_cons with ⟨c, rest, shape, first, _⟩
      cases negative with
      | false =>
          refine ⟨c, rest ++ '.'.toUInt8 :: behind.bytes, ?_, .inl first⟩
          change digits.bytes ++ _ = _
          rw [shape, List.cons_append]
      | true =>
          exact ⟨'-'.toUInt8, digits.bytes ++ '.'.toUInt8 :: behind.bytes, rfl, .inr (.inl rfl)⟩
  | fraction negative behind =>
      cases negative with
      | false => exact ⟨'.'.toUInt8, behind.bytes, rfl, .inr (.inr rfl)⟩
      | true => exact ⟨'-'.toUInt8, '.'.toUInt8 :: behind.bytes, rfl, .inr (.inl rfl)⟩

/-- Behind its sign a literal begins with a digit, or with a point and a
digit. -/
theorem can (rest : Bytes) : xCanNumber (literal.spelling ++ rest) = true := by
  have signed : ∀ negative : Bool, ∀ c : UInt8, ∀ text : Bytes, isDigit c = true →
      xCanNumber (sign negative ++ c :: text) = true := by
    intro negative c text digit
    have known := isDigit_spec digit
    have here : byteAt (c :: text) = c := rfl
    cases negative with
    | false =>
        change xCanNumber (c :: text) = true
        unfold xCanNumber
        simp only [here, known.2.2.1, known.2.2.2.2.1, if_false]
        exact digit
    | true =>
        change isDigit (byteAt (if byteAt (c :: text) = '.'.toUInt8 then _ else c :: text)) = true
        rw [here, if_neg known.2.2.2.2.1]
        exact digit
  cases literal with
  | whole negative digits small =>
      rcases digits.eq_cons with ⟨c, more, shape, first, _⟩
      change xCanNumber (sign negative ++ digits.bytes ++ rest) = true
      rw [shape, List.append_assoc, List.cons_append]
      exact signed negative c _ first
  | point negative digits small behind =>
      rcases digits.eq_cons with ⟨c, more, shape, first, _⟩
      change xCanNumber (sign negative ++ (digits.bytes ++ _) ++ rest) = true
      rw [shape, List.append_assoc, List.cons_append, List.cons_append]
      exact signed negative c _ first
  | fraction negative behind =>
      rcases behind.eq_cons with ⟨c, more, shape, first, _⟩
      change xCanNumber (sign negative ++ '.'.toUInt8 :: behind.bytes ++ rest) = true
      rw [shape, List.append_assoc]
      cases negative <;> exact first

theorem read {rest : Bytes} (stop : xIsNamechar (byteAt rest) = false) :
    numberExpr (literal.spelling ++ rest) = some (literal.tree, skipSpaces rest) := by
  cases literal with
  | whole negative digits small =>
      cases negative with
      | false =>
          have number := atol_digits digits.all small
          rcases digits.eq_cons with ⟨c, more, shape, _, later⟩
          have spelled : (Literal.whole false digits small).spelling = c :: more := shape
          rw [spelled, List.cons_append, numberExpr_digits c later stop, ← shape, number]
          apply congrArg fun value => some (Expr.leaf { type := .int, integer := value }, _)
          exact (one_mul _).symm
      | true =>
          have number := atol_negative digits.all small
          change numberExpr ('-'.toUInt8 :: (digits.bytes ++ rest)) = _
          rw [numberExpr_digits '-'.toUInt8 digits.all stop, number]
          apply congrArg fun value => some (Expr.leaf { type := .int, integer := value }, _)
          exact (neg_one_mul _).symm
  | point negative digits small behind =>
      rw [tree_of_not_integral (id : ¬ (Literal.point negative digits small behind).Integral)]
      cases negative with
      | false =>
          rcases digits.eq_cons with ⟨c, more, shape, _, later⟩
          have spelled : (Literal.point false digits small behind).spelling =
              c :: (more ++ '.'.toUInt8 :: behind.bytes) := by
            change digits.bytes ++ '.'.toUInt8 :: behind.bytes = _
            rw [shape, List.cons_append]
          rw [spelled]
          exact numberExpr_point c later behind.all stop
      | true => exact numberExpr_point '-'.toUInt8 digits.all behind.all stop
  | fraction negative behind =>
      cases negative with
      | false =>
          change numberExpr ('.'.toUInt8 :: (behind.bytes ++ rest)) = _
          rw [numberExpr_digits '.'.toUInt8 behind.all stop, atol_point]
          rfl
      | true => exact @numberExpr_point '-'.toUInt8 [] _ _ nofun behind.all stop

/-- Every literal is an atom. -/
theorem atom : Atom literal.spelling literal.tree := by
  rcases literal.begins with ⟨c, text, spelled, first⟩
  have can := literal.can
  have read := fun rest => @literal.read rest
  rw [spelled] at can read ⊢
  exact .ofNumber first can read

/-- Literals that are written alike are compiled alike. -/
theorem integral_of_spelling {other : Literal} (same : literal.spelling = other.spelling)
    (integral : literal.Integral) : other.Integral := by
  have read := @literal.read [] rfl
  rw [same, other.read rfl, tree_of_integral integral] at read
  by_contra text
  rw [tree_of_not_integral text] at read
  cases read

theorem tree_ne_null : literal.tree ≠ .null := by
  by_cases integral : literal.Integral
  · rw [tree_of_integral integral]
    rintro ⟨⟩
  · rw [tree_of_not_integral integral]
    rintro ⟨⟩

end Literal

/-- A text that is read whole at the loosest level is compiled to its tree. -/
theorem ReadsAt.compiled {text : Bytes} {tree : Expr} (reads : ReadsAt 0 text tree) :
    xpathCompile text = some tree := by
  have read := reads text.length [] (Nat.le_refl _) .nil
  rw [List.append_nil] at read
  have whole : doOrExpr (text.length + 1) text = some (tree, []) := read
  unfold xpathCompile
  rw [whole]
  rfl

namespace Literal

variable (literal : Literal)

theorem compiled : xpathCompile literal.spelling = some literal.tree :=
  (literal.atom.readsAt.lower literal.atom.toOpening (fun _ => literal.atom.noCall) (Nat.le_refl 8)
    (Nat.zero_le 8)).compiled

/-- The predicate that a literal is. -/
theorem compiled_filter (operand : Term) :
    xpathCompile (bracketed operand.level 9 operand.printed ++
      '['.toUInt8 :: (literal.spelling ++ [']'.toUInt8])) =
        some (.node { type := .filter } (operand.tree.withNext literal.tree) .null) := by
  have atom := operand.reads.atomic
  have inner := literal.atom.readsAt.lower literal.atom.toOpening (fun _ => literal.atom.noCall)
    (Nat.le_refl 8) (Nat.zero_le 8)
  exact ((ReadsAt.filter atom operand.tree_ne_null inner).lower (atom.toOpening.append _)
    (fun _ => atom.noCall.append _) (Nat.le_refl 8) (Nat.zero_le 8)).compiled

/-- The comparison of two literals. -/
theorem compiled_eq (other : Literal) :
    xpathCompile (literal.spelling ++ spaced (lit "=") ++ other.spelling) =
      some (.node { type := .eq } (literal.tree.withNext other.tree) .null) := by
  have reads : ∀ literal : Literal, ReadsAt 3 literal.spelling literal.tree := fun literal =>
    literal.atom.readsAt.lower literal.atom.toOpening (fun _ => literal.atom.noCall) (Nat.le_refl 8)
      (by decide)
  have whole := @ReadsLeft.extend _ _ _ _ .eq (reads literal).left literal.tree_ne_null
    other.atom.toOpening (reads other)
  have opening : Opening (literal.spelling ++ spaced (lit "=") ++ other.spelling) := by
    rw [List.append_assoc]
    exact literal.atom.toOpening.append _
  exact ((whole.readsAt (by decide) (by decide)).lower opening
    (fun high => absurd high (by decide : ¬ 7 ≤ 2)) (by decide) (Nat.zero_le 2)).compiled

end Literal

/-! ## What literals are worth -/

/-- A `double` has the value of what it is made of. -/
class ExactDouble (Num : Type) [Double Num] where
  /-- None for NaN and for what is too large. -/
  value : Num → Option ℚ
  ofInt : ∀ n : Int, value (Double.ofInt n) = some (n : ℚ)
  strtod : ∀ literal : Literal, value (Double.strtod literal.spelling) = some literal.value
  equal : ∀ a b : Num, ∀ p q : ℚ, value a = some p → value b = some q →
    (Double.equal a b = true ↔ p = q)

section Evaluation

variable {Num : Type} [Double Num]

/-- The value is this number. -/
def IsNumber [ExactDouble Num] (q : ℚ) : RValue Num → Prop
  | .int n => (n : ℚ) = q
  | .number x => ExactDouble.value x = some q
  | _ => False

variable (env : Env Num) (literal : Literal)

/-- A literal is compiled, and evaluated to the number that is meant. -/
def YieldsNumber [ExactDouble Num] : Prop :=
  Exists fun tree => xpathCompile literal.spelling = some tree ∧
    ∀ depth current heap, Exists fun value =>
      xpathExecuteScalar env depth tree current heap = some (value, heap) ∧
        IsNumber literal.value value

/-- The predicate that a literal is selects the candidate at this position. -/
def ActsAsPosition : Prop :=
  ∀ operand : Term, Exists fun tree =>
    xpathCompile (bracketed operand.level 9 operand.printed ++
      '['.toUInt8 :: (literal.spelling ++ [']'.toUInt8])) =
        some (.node { type := .filter } (operand.tree.withNext tree) .null) ∧
    ∀ depth, Exists fun expr => (operandsAt env depth tree).head? = some expr ∧
      ∀ heap node, 0 < (heap.get node).position →
        filterTest expr node heap =
          some (decide (((heap.get node).position : ℚ) = literal.value), heap)

/-- `=` between two literals is true. -/
def ComparesEqual (other : Literal) : Prop :=
  Exists fun tree => xpathCompile (literal.spelling ++ spaced (lit "=") ++ other.spelling) =
      some tree ∧
    ∀ depth current heap,
      xpathExecuteScalar env depth tree current heap = some (.bool true, heap)

namespace Literal

/-- The value of the expression that a literal is. -/
def evaluated : RValue Num :=
  if literal.Integral then .int literal.integer else .string (some literal.spelling)

omit [Double Num] in
theorem evaluated_of_integral {literal : Literal} (integral : literal.Integral) :
    (literal.evaluated : RValue Num) = .int literal.integer := if_pos integral

omit [Double Num] in
theorem evaluated_of_not_integral {literal : Literal} (text : ¬ literal.Integral) :
    (literal.evaluated : RValue Num) = .string (some literal.spelling) := if_neg text

theorem execute (depth : Nat) (next : Expr) (current : NodeId) (heap : Heap) :
    firstOperand (operandsAt env depth (literal.tree.withNext next)) current heap =
      some (literal.evaluated, heap) := by
  by_cases integral : literal.Integral
  · rw [tree_of_integral integral, evaluated_of_integral integral]
    rfl
  · rw [tree_of_not_integral integral, evaluated_of_not_integral integral]
    rfl

theorem tree_withNext : literal.tree.withNext .null = literal.tree := by
  by_cases integral : literal.Integral
  · rw [tree_of_integral integral]
    rfl
  · rw [tree_of_not_integral integral]
    rfl

/-- What a text of digits is read as. -/
theorem textNumber_spelling :
    (textNumber literal.spelling : Num) = Double.strtod literal.spelling := by
  have can := literal.can []
  rw [List.append_nil] at can
  have start : skipSpaces literal.spelling = literal.spelling := skipSpaces_of literal.atom.begins
  unfold xCanNumber at can
  unfold textNumber
  simp only [start] at can ⊢
  apply if_pos
  by_cases point : byteAt (if byteAt literal.spelling = '-'.toUInt8 then literal.spelling.tail
      else literal.spelling) = '.'.toUInt8
  · exact .inl point
  · rw [if_neg point] at can
    exact .inr can

end Literal

end Evaluation

/-! ## Which literals are right -/

theorem digitValue_eq_zero_iff {c : UInt8} (digit : isDigit c = true) :
    digitValue c = 0 ↔ c = '0'.toUInt8 := by
  constructor
  · intro zero
    unfold digitValue at zero
    rw [if_pos digit] at zero
    unfold isDigit at digit
    rw [Bool.and_eq_true, decide_eq_true_eq, decide_eq_true_eq] at digit
    have least : ('0'.toUInt8).toNat ≤ c.toNat := UInt8.le_iff_toNat_le.mp digit.1
    exact UInt8.toNat_inj.mp (by omega)
  · rintro rfl
    rfl

/-- Digits from a number on are worth nothing only if it is zero, and they are
all zeros. -/
theorem digits_eq_zero_iff {digits : Bytes} (all : ∀ c ∈ digits, isDigit c = true) (value : Nat) :
    digits.foldl (fun value c => value * 10 + digitValue c) value = 0 ↔
      value = 0 ∧ ∀ c ∈ digits, c = '0'.toUInt8 := by
  induction digits generalizing value with
  | nil => exact ⟨fun zero => ⟨zero, nofun⟩, And.left⟩
  | cons c digits inductionHypothesis =>
      have first := digitValue_eq_zero_iff (all c List.mem_cons_self)
      rw [List.foldl_cons, inductionHypothesis fun b member => all b (List.mem_cons_of_mem c member),
        List.forall_mem_cons, ← first, ← and_assoc]
      apply and_congr_left
      intro _
      omega

theorem digits_lt {digits : Bytes} (all : ∀ c ∈ digits, isDigit c = true) (value : Nat) :
    digits.foldl (fun value c => value * 10 + digitValue c) value <
      (value + 1) * 10 ^ digits.length := by
  induction digits generalizing value with
  | nil =>
      change value < (value + 1) * 1
      omega
  | cons c digits inductionHypothesis =>
      have first := (isDigit_spec (all c List.mem_cons_self)).2.1
      have later := inductionHypothesis (fun b member => all b (List.mem_cons_of_mem c member))
        (value * 10 + digitValue c)
      rw [List.foldl_cons, List.length_cons, pow_succ]
      calc
        _ < (value * 10 + digitValue c + 1) * 10 ^ digits.length := later
        _ ≤ ((value + 1) * 10) * 10 ^ digits.length := Nat.mul_le_mul_right _ (by omega)
        _ = (value + 1) * (10 ^ digits.length * 10) := by ring

namespace Digits

theorem fractionValue_eq_zero_iff (digits : Digits) :
    digits.fractionValue = 0 ↔ ∀ c ∈ digits.bytes, c = '0'.toUInt8 := by
  have zero := digits_eq_zero_iff digits.all 0
  have positive : (10 : ℚ) ^ digits.bytes.length ≠ 0 := pow_ne_zero _ (by norm_num)
  unfold fractionValue
  rw [div_eq_zero_iff, or_iff_left positive, Nat.cast_eq_zero]
  exact zero.trans (and_iff_right rfl)

theorem fractionValue_nonneg (digits : Digits) : 0 ≤ digits.fractionValue := by
  unfold fractionValue
  positivity

theorem fractionValue_lt (digits : Digits) : digits.fractionValue < 1 := by
  have bound := digits_lt digits.all 0
  rw [Nat.zero_add, Nat.one_mul] at bound
  have positive : (0 : ℚ) < 10 ^ digits.bytes.length := by positivity
  unfold fractionValue
  rw [div_lt_one positive]
  exact_mod_cast bound

end Digits

namespace Literal

theorem Whole.integral {literal : Literal} (whole : literal.Whole) : literal.Integral := by
  cases literal with
  | whole => trivial
  | point => exact whole
  | fraction => exact whole.1

/-- An integer is what was meant if the literal is whole. -/
theorem integer_eq_value_iff {literal : Literal} (integral : literal.Integral) :
    (literal.integer : ℚ) = literal.value ↔ literal.Whole := by
  cases literal with
  | whole negative digits small =>
      refine iff_of_true ?_ trivial
      cases negative <;> unfold integer value <;> push_cast <;> rfl
  | point => exact integral.elim
  | fraction negative behind =>
      have positive : negative = false := integral
      have meant : (Literal.fraction false behind).value = behind.fractionValue := one_mul _
      subst positive
      rw [meant, eq_comm]
      exact behind.fractionValue_eq_zero_iff.trans (and_iff_right rfl).symm

/-- What a literal becomes depends on its value alone. -/
theorem integer_eq_floor {literal : Literal} (integral : literal.Integral) :
    literal.integer = ⌊literal.value⌋ := by
  cases literal with
  | whole negative digits small =>
      have meant : ((Literal.whole negative digits small).integer : ℚ) =
          (Literal.whole negative digits small).value := (integer_eq_value_iff integral).mpr trivial
      rw [← meant, Int.floor_intCast]
  | point => exact integral.elim
  | fraction negative behind =>
      have positive : negative = false := integral
      have meant : (Literal.fraction false behind).value = behind.fractionValue := one_mul _
      subst positive
      rw [meant, eq_comm]
      exact Int.floor_eq_zero_iff.mpr ⟨behind.fractionValue_nonneg, behind.fractionValue_lt⟩

/-- At a position that candidates have it makes no difference whether the
integer or the number that is meant is compared. -/
theorem position_eq_integer_iff {literal : Literal} (integral : literal.Integral) {position : Nat}
    (positive : 0 < position) :
    (position : Int) = literal.integer ↔ (position : ℚ) = literal.value := by
  by_cases whole : literal.Whole
  · rw [← (integer_eq_value_iff integral).mpr whole]
    exact_mod_cast Iff.rfl
  · cases literal with
    | whole => exact absurd trivial whole
    | point => exact integral.elim
    | fraction negative behind =>
        have same : negative = false := integral
        have meant : (Literal.fraction false behind).value = behind.fractionValue := one_mul _
        have least : (1 : ℚ) ≤ position := by exact_mod_cast positive
        subst same
        rw [meant]
        refine iff_of_false (fun zero => ?_) (fun equal => ?_)
        · change (position : Int) = 0 at zero
          omega
        · exact absurd behind.fractionValue_lt (not_lt.mpr (equal ▸ least))

end Literal

section Conditions

variable {Num : Type} [Double Num] [ExactDouble Num] (env : Env Num) (literal : Literal)

/-- The literals that become numbers with their own value. -/
theorem yieldsNumber_iff : YieldsNumber env literal ↔ literal.Whole := by
  have run : ∀ depth current heap, xpathExecuteScalar env depth literal.tree current heap =
      some (literal.evaluated, heap) := by
    intro depth current heap
    have executed := literal.execute env depth .null current heap
    rw [literal.tree_withNext] at executed
    exact executed
  have number : IsNumber literal.value (literal.evaluated : RValue Num) ↔ literal.Whole := by
    by_cases integral : literal.Integral
    · rw [Literal.evaluated_of_integral integral]
      exact Literal.integer_eq_value_iff integral
    · rw [Literal.evaluated_of_not_integral integral]
      exact iff_of_false id fun whole => integral whole.integral
  constructor
  · rintro ⟨tree, compiled, runs⟩
    rw [literal.compiled] at compiled
    cases compiled
    rcases runs 0 0 .empty with ⟨value, executed, meant⟩
    rw [run] at executed
    cases executed
    exact number.mp meant
  · intro whole
    exact ⟨literal.tree, literal.compiled, fun depth current heap =>
      ⟨literal.evaluated, run depth current heap, number.mpr whole⟩⟩

omit [ExactDouble Num] in
/-- A predicate that is no integer selects everything. -/
theorem filterTest_text {literal : Literal} (text : ¬ literal.Integral) (depth : Nat) (heap : Heap)
    (node : NodeId) {expr : Operand Num}
    (head : (operandsAt env depth literal.tree).head? = some expr) :
    filterTest expr node heap = some (true, heap) := by
  rw [Literal.tree_of_not_integral text] at head
  cases head
  have nonempty : literal.spelling ≠ [] := literal.atom.nonempty
  have truth : rval2bool (.string (some literal.spelling) : RValue Num) = true :=
    decide_eq_true nonempty
  change some (rval2bool (.string (some literal.spelling) : RValue Num), heap) = _
  rw [truth]

omit [ExactDouble Num] in
/-- The literals that act as positions. -/
theorem actsAsPosition_iff : ActsAsPosition env literal ↔ literal.Integral := by
  constructor
  · intro acts
    by_contra text
    rcases acts (.integer 0) with ⟨tree, compiled, tests⟩
    rw [literal.compiled_filter] at compiled
    cases compiled
    rcases tests 0 with ⟨expr, head, tested⟩
    have everywhere : ∀ position : Nat, 0 < position → (position : ℚ) = literal.value := by
      intro position positive
      have here := tested (.ofList [{ type := .text, position := position }]) 0 positive
      rw [filterTest_text env text 0 _ _ head] at here
      exact of_decide_eq_true (congrArg Prod.fst (Option.some.inj here)).symm
    have two : ((1 : Nat) : ℚ) = ((2 : Nat) : ℚ) :=
      (everywhere 1 (by decide)).trans (everywhere 2 (by decide)).symm
    exact absurd (Nat.cast_injective two) (by decide)
  · intro integral operand
    refine ⟨literal.tree, literal.compiled_filter operand, fun depth => ?_⟩
    rw [Literal.tree_of_integral integral]
    refine ⟨_, rfl, fun heap node positive => ?_⟩
    change some (decide (((heap.get node).position : Int) = literal.integer), heap) = _
    rw [decide_eq_decide.mpr (Literal.position_eq_integer_iff integral positive)]

/-- The numbers that `rval_equal` makes of literals. -/
theorem rval2number_evaluated (heap : Heap) : Exists fun number : Num =>
    rval2number heap literal.evaluated = some number ∧
      ExactDouble.value number =
        some (if literal.Integral then (literal.integer : ℚ) else literal.value) := by
  by_cases integral : literal.Integral
  · rw [Literal.evaluated_of_integral integral, if_pos integral]
    exact ⟨Double.ofInt literal.integer, rfl, ExactDouble.ofInt literal.integer⟩
  · rw [Literal.evaluated_of_not_integral integral, if_neg integral]
    refine ⟨Double.strtod literal.spelling, ?_, ExactDouble.strtod literal⟩
    exact congrArg some literal.textNumber_spelling

/-- Two texts are compared as texts, and everything else as numbers. -/
theorem rvalEqual_evaluated (other : Literal) (heap : Heap) : Exists fun answer =>
    rvalEqual heap (literal.evaluated : RValue Num) other.evaluated true = some answer ∧
      (answer = true ↔
        if ¬ literal.Integral ∧ ¬ other.Integral then literal.spelling = other.spelling
        else (if literal.Integral then (literal.integer : ℚ) else literal.value) =
          if other.Integral then (other.integer : ℚ) else other.value) := by
  rcases @rval2number_evaluated Num _ _ literal heap with ⟨left, leftRead, leftValue⟩
  rcases @rval2number_evaluated Num _ _ other heap with ⟨right, rightRead, rightValue⟩
  have numbers := ExactDouble.equal left right _ _ leftValue rightValue
  by_cases texts : ¬ literal.Integral ∧ ¬ other.Integral
  · rw [if_pos texts, Literal.evaluated_of_not_integral texts.1,
      Literal.evaluated_of_not_integral texts.2]
    refine ⟨decide (some literal.spelling = some other.spelling) == true, rfl, ?_⟩
    rw [beq_true, decide_eq_true_eq, Option.some.injEq]
  · rw [if_neg texts]
    have compared : rvalEqual heap (literal.evaluated : RValue Num) other.evaluated true = (do
        let l ← rval2number heap (literal.evaluated : RValue Num)
        let r ← rval2number heap (other.evaluated : RValue Num)
        some (Double.equal l r == true)) := by
      by_cases first : literal.Integral
      · rw [Literal.evaluated_of_integral first]
        by_cases second : other.Integral
        · rw [Literal.evaluated_of_integral second]
          rfl
        · rw [Literal.evaluated_of_not_integral second]
          rfl
      · have second : other.Integral := not_not.mp fun text => texts ⟨first, text⟩
        rw [Literal.evaluated_of_not_integral first, Literal.evaluated_of_integral second]
        rfl
    rw [leftRead, rightRead] at compared
    refine ⟨Double.equal left right == true, compared, ?_⟩
    rw [beq_true]
    exact numbers

theorem comparesEqual_iff (other : Literal) :
    ComparesEqual env literal other ↔
      if ¬ literal.Integral ∧ ¬ other.Integral then literal.spelling = other.spelling
      else (if literal.Integral then (literal.integer : ℚ) else literal.value) =
        if other.Integral then (other.integer : ℚ) else other.value := by
  have run : ∀ depth current heap,
      xpathExecuteScalar env depth (.node { type := .eq } (literal.tree.withNext other.tree) .null)
        current heap = (do
          let answer ← rvalEqual heap (literal.evaluated : RValue Num) other.evaluated true
          some (.bool answer, heap)) := by
    intro depth current heap
    have first := literal.execute env depth other.tree current heap
    have second : secondOperand (operandsAt env depth (literal.tree.withNext other.tree)) current
        heap = some (other.evaluated, heap) := by
      rw [← other.execute env depth .null current heap, other.tree_withNext]
      by_cases integral : literal.Integral
      · rw [Literal.tree_of_integral integral]
        rfl
      · rw [Literal.tree_of_not_integral integral]
        rfl
    have both : evalBoth (operandsAt env depth (literal.tree.withNext other.tree)) current heap =
        some (literal.evaluated, other.evaluated, heap) := by
      unfold evalBoth
      simp only [first, second, Option.bind_eq_bind, Option.bind_some]
    rw [xpathExecuteScalar_node]
    change (evalBoth _ current heap >>= fun found => _) = _
    rw [both]
    rfl
  constructor
  · rintro ⟨tree, compiled, runs⟩
    rw [literal.compiled_eq] at compiled
    cases compiled
    rcases @rvalEqual_evaluated Num _ _ literal other .empty with ⟨answer, compared, meant⟩
    have here := runs 0 0 .empty
    rw [run, compared] at here
    cases here
    exact meant.mp rfl
  · intro same
    refine ⟨_, literal.compiled_eq other, fun depth current heap => ?_⟩
    rcases @rvalEqual_evaluated Num _ _ literal other heap with ⟨answer, compared, meant⟩
    rw [run, compared, meant.mpr same]
    rfl

/-- A literal becomes a number with its own value, and acts as a position, only
if it is written without a point, or is a zero behind one.  Of two literals
for one number these compare equal to everything, and so do two that become
integers, and two that are written alike. -/
theorem literals_right_iff :
    (∀ literal, (YieldsNumber env literal ∧ ActsAsPosition env literal ↔ literal.Whole) ∧
      (ActsAsPosition env literal ↔ literal.Integral)) ∧
    ∀ literal other : Literal, literal.value = other.value →
      (ComparesEqual env literal other ↔
        literal.Whole ∨ other.Whole ∨ (literal.Integral ∧ other.Integral) ∨
          literal.spelling = other.spelling) := by
  refine ⟨fun literal => ⟨?_, actsAsPosition_iff env literal⟩, ?_⟩
  · rw [yieldsNumber_iff, actsAsPosition_iff]
    exact and_iff_left_of_imp Literal.Whole.integral
  · intro literal other same
    rw [comparesEqual_iff]
    by_cases first : literal.Integral
    · have meant := Literal.integer_eq_value_iff first
      rw [if_neg fun texts => texts.1 first, if_pos first]
      by_cases second : other.Integral
      · refine iff_of_true ?_ (.inr (.inr (.inl ⟨first, second⟩)))
        rw [if_pos second, Literal.integer_eq_floor first, Literal.integer_eq_floor second, same]
      · rw [if_neg second, ← same, meant]
        refine ⟨.inl, ?_⟩
        rintro (whole | whole | both | spelled)
        · exact whole
        · exact absurd whole.integral second
        · exact absurd both.2 second
        · exact absurd (literal.integral_of_spelling spelled first) second
    · by_cases second : other.Integral
      · have meant := Literal.integer_eq_value_iff second
        rw [if_neg fun texts => texts.2 second, if_neg first, if_pos second, same, eq_comm, meant]
        refine ⟨fun whole => .inr (.inl whole), ?_⟩
        rintro (whole | whole | both | spelled)
        · exact absurd whole.integral first
        · exact whole
        · exact absurd both.1 first
        · exact absurd (other.integral_of_spelling spelled.symm second) first
      · rw [if_pos ⟨first, second⟩]
        refine ⟨fun spelled => .inr (.inr (.inr spelled)), ?_⟩
        rintro (whole | whole | both | spelled)
        · exact absurd whole.integral first
        · exact absurd whole.integral second
        · exact absurd both.1 first
        · exact spelled

end Conditions

/-! ### Fractions in the place of `double` -/

/-- Digits, with or without a point. -/
def decimalDigits (text : Bytes) : ℚ :=
  let front := digitsAt 10 text
  let behind := (digitsAt 10 front.2.tail).1
  if byteAt front.2 = '.'.toUInt8 then
    digitsValue 10 front.1 + digitsValue 10 behind / 10 ^ behind.length
  else digitsValue 10 front.1

/-- `strtod` without exponents. -/
def decimalNumber (text : Bytes) : ℚ :=
  if byteAt text = '-'.toUInt8 then -1 * decimalDigits text.tail else 1 * decimalDigits text

instance : Double ℚ where
  ofInt := fun n => n
  strtod := decimalNumber
  nan := 0
  isNan := fun _ => false
  add := (· + ·)
  sub := (· - ·)
  mul := (· * ·)
  div := (· / ·)
  mod := fun left right =>
    let divisor := right.num.tdiv right.den
    if divisor = 0 then none else some ((left.num.tdiv left.den).tmod divisor)
  equal := fun left right => left = right
  less := fun left right => left < right
  print := fun number => lit (toString number)

theorem decimalDigits_whole {digits : Bytes} (all : ∀ c ∈ digits, isDigit c = true) :
    decimalDigits digits = digitsValue 10 digits := by
  have noPoint : byteAt ([] : Bytes) ≠ '.'.toUInt8 := by decide
  unfold decimalDigits
  simp only [digitsAt_digits all, noPoint, if_false]

theorem decimalDigits_point {front behind : Bytes} (all : ∀ c ∈ front, isDigit c = true)
    (others : ∀ c ∈ behind, isDigit c = true) :
    decimalDigits (front ++ '.'.toUInt8 :: behind) =
      digitsValue 10 front + digitsValue 10 behind / 10 ^ behind.length := by
  have point : decide (digitValue (byteAt ('.'.toUInt8 :: behind)) < 10) = false :=
    (by decide : decide (digitValue '.'.toUInt8 < 10) = false)
  have here : byteAt ('.'.toUInt8 :: behind) = '.'.toUInt8 := rfl
  unfold decimalDigits
  simp only [digitsAt_append all (.inr point), here, if_true, List.tail_cons, digitsAt_digits others]

theorem decimalNumber_sign (negative : Bool) {text : Bytes} (plain : byteAt text ≠ '-'.toUInt8) :
    decimalNumber (Literal.sign negative ++ text) =
      (if negative then -1 else 1) * decimalDigits text := by
  cases negative with
  | false => exact if_neg plain
  | true => rfl

theorem decimalNumber_spelling (literal : Literal) :
    decimalNumber literal.spelling = literal.value := by
  have plain : ∀ digits : Digits, ∀ rest, byteAt (digits.bytes ++ rest) ≠ '-'.toUInt8 := by
    intro digits rest
    rcases digits.eq_cons with ⟨c, more, shape, first, _⟩
    rw [shape]
    exact (isDigit_spec first).2.2.1
  cases literal with
  | whole negative digits small =>
      have begins := plain digits []
      rw [List.append_nil] at begins
      change decimalNumber (Literal.sign negative ++ digits.bytes) = _
      rw [decimalNumber_sign negative begins, decimalDigits_whole digits.all]
      rfl
  | point negative digits small behind =>
      change decimalNumber (Literal.sign negative ++ (digits.bytes ++ '.'.toUInt8 :: behind.bytes)) = _
      rw [decimalNumber_sign negative (plain digits _), decimalDigits_point digits.all behind.all]
      rfl
  | fraction negative behind =>
      have begins : byteAt ('.'.toUInt8 :: behind.bytes) ≠ '-'.toUInt8 :=
        (by decide : '.'.toUInt8 ≠ '-'.toUInt8)
      have read := @decimalDigits_point [] behind.bytes nofun behind.all
      change decimalNumber (Literal.sign negative ++ '.'.toUInt8 :: behind.bytes) = _
      rw [decimalNumber_sign negative begins]
      change _ * decimalDigits ([] ++ '.'.toUInt8 :: behind.bytes) = _
      rw [read]
      have none_ : ((digitsValue 10 [] : Nat) : ℚ) = 0 := rfl
      rw [none_, zero_add]
      rfl

instance : ExactDouble ℚ where
  value := some
  ofInt := fun _ => rfl
  strtod := fun literal => congrArg some (decimalNumber_spelling literal)
  equal := by
    intro a b p q left right
    cases left
    cases right
    exact decide_eq_true_iff

def digit (c : UInt8) (known : isDigit c = true) : Digits where
  bytes := [c]
  nonempty := List.cons_ne_nil c []
  all := by
    intro b member
    rw [List.mem_singleton.mp member]
    exact known

def one : Digits := ⟨lit "1", by decide, List.all_eq_true.mp (by decide)⟩

def zero : Digits := ⟨lit "0", by decide, List.all_eq_true.mp (by decide)⟩

def five : Digits := ⟨lit "5", by decide, List.all_eq_true.mp (by decide)⟩

def fifty : Digits := ⟨lit "50", by decide, List.all_eq_true.mp (by decide)⟩

/-- `1.5` -/
def oneAndFive : Literal := .point false one (by decide) five

/-- `1.50` -/
def oneAndFifty : Literal := .point false one (by decide) fifty

/-- `.5` -/
def pointFive : Literal := .fraction false five

/-- `0.5` -/
def zeroPointFive : Literal := .point false zero (by decide) five

theorem oneAndFive_value : oneAndFive.value = oneAndFifty.value := by
  change 1 * (1 + 5 / 10 ^ 1) = (1 * (1 + 50 / 10 ^ 2) : ℚ)
  norm_num

theorem literals_right_iff_fractions :
    (ActsAsPosition (Env.bare ℚ 0) pointFive ∧ ¬ ActsAsPosition (Env.bare ℚ 0) oneAndFive) ∧
      ¬ ComparesEqual (Env.bare ℚ 0) oneAndFive oneAndFifty := by
  have right := literals_right_iff (Env.bare ℚ 0)
  refine ⟨⟨(right.1 pointFive).2.mpr rfl, (right.1 oneAndFive).2.mp⟩, fun equal => ?_⟩
  rcases (right.2 oneAndFive oneAndFifty oneAndFive_value).mp equal with whole | whole | both | same
  · exact whole
  · exact whole
  · exact both.1
  · exact absurd same (by decide)

/-- `1.5` is no number, and none of `1.5 = 1.50` and `.5 = 0.5` holds. -/
theorem halves_differ :
    (¬ YieldsNumber (Env.bare ℚ 0) oneAndFive ∧ ¬ ActsAsPosition (Env.bare ℚ 0) oneAndFive) ∧
      (oneAndFive.value = oneAndFifty.value ∧
        ¬ ComparesEqual (Env.bare ℚ 0) oneAndFive oneAndFifty) ∧
      (pointFive.value = zeroPointFive.value ∧
        ¬ ComparesEqual (Env.bare ℚ 0) pointFive zeroPointFive) := by
  refine ⟨⟨(yieldsNumber_iff _ oneAndFive).mp, (actsAsPosition_iff _ oneAndFive).mp⟩,
    ⟨oneAndFive_value, fun equal => ?_⟩, ?_, fun equal => ?_⟩
  · have same := (comparesEqual_iff _ oneAndFive oneAndFifty).mp equal
    rw [if_pos ⟨id, id⟩] at same
    exact absurd same (by decide)
  · change 1 * (5 / 10 ^ 1) = (1 * (0 + 5 / 10 ^ 1) : ℚ)
    norm_num
  · have same := (comparesEqual_iff _ pointFive zeroPointFive).mp equal
    have integral : pointFive.Integral := rfl
    have text : ¬ zeroPointFive.Integral := id
    rw [if_neg fun texts => texts.1 integral, if_pos integral, if_neg text] at same
    change (0 : ℚ) = 1 * (0 + 5 / 10 ^ 1) at same
    norm_num at same

end TurboXSL
