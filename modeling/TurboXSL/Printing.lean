import Mathlib.Data.List.DropRight
import TurboXSL.Terms

namespace TurboXSL

/-!
# Compiling what was printed

Every level of the recursive descent reads the printed form of a term of its
own level or a tighter one.  A text is read in front of any rest that does
not go on with an operator of its level or a tighter one (`Follow`), and the
white space behind it is gone afterwards.
-/

/-- The parser of a level, inside brackets of the given depth. -/
def levelParser (depth : Nat) : Nat → Parser
  | 0 => doOrExpr (depth + 1)
  | 1 => doAndExpr (doOrExpr depth)
  | 2 => doEqExpr (doOrExpr depth)
  | 3 => doRelExpr (doOrExpr depth)
  | 4 => doAddExpr (doOrExpr depth)
  | 5 => doMulExpr (doOrExpr depth)
  | 6 => fun p => doNotExpr (doOrExpr depth) (p.length + 1) p
  | 7 => doUnionExpr (doOrExpr depth)
  | _ => doNodeExpr (doOrExpr depth)

/-- The operators of all levels as they are printed. -/
def symbols : List (Nat × Bytes) :=
  [(7, lit "|"), (5, lit "*"), (5, lit "div"), (5, lit "mod"), (4, lit "+"), (4, lit "-"),
    (3, lit "<="), (3, lit ">="), (3, lit "<"), (3, lit ">"), (2, lit "="), (2, lit "!="),
    (1, lit "and"), (0, lit "or")]

/-- What may stand behind a text of a level: the end, a closing bracket, a
comma, or an operator of a looser level. -/
inductive Follow (level : Nat) : Bytes → Prop where
  | nil : Follow level []
  | closing (rest : Bytes) : Follow level (')'.toUInt8 :: rest)
  | filtered (rest : Bytes) : Follow level (']'.toUInt8 :: rest)
  | comma (rest : Bytes) : Follow level (','.toUInt8 :: rest)
  | operator (symbol : Nat × Bytes) (member : symbol ∈ symbols) (looser : symbol.1 < level)
      (rest : Bytes) : Follow level (spaced symbol.2 ++ rest)

/-- A text is read at a level as a tree. -/
def ReadsAt (level : Nat) (text : Bytes) (tree : Expr) : Prop :=
  ∀ depth rest, text.length ≤ depth → Follow level rest →
    levelParser depth level (text ++ rest) = some (tree, skipSpaces rest)

/-- A text that can begin an expression: with neither white space nor a closing
bracket. -/
structure Opening (text : Bytes) : Prop where
  nonempty : text ≠ []
  begins : xIsWs (byteAt text) = false
  open_ : byteAt text ≠ ')'.toUInt8

/-- The text is no call of `not`, whatever stands behind it. -/
def NoCall (text : Bytes) : Prop :=
  ∀ rest behind, matchAt (lit "not") (text ++ rest) = some behind →
    byteAt behind ≠ '('.toUInt8 ∧ xIsWs (byteAt behind) = false

/-- Literals, variables, calls and brackets are read by `do_node2_expr`, in
front of anything that does not prolong a name. -/
structure Atom (text : Bytes) (tree : Expr) : Prop extends Opening text where
  noCall : NoCall text
  reads : ∀ depth rest, text.length ≤ depth → xIsNamechar (byteAt rest) = false → Exists fun left =>
    skipSpaces left = skipSpaces rest ∧
      doNode2Expr (doOrExpr depth) (text ++ rest) = some (tree, left)

/-! ## White space and what follows -/

theorem skipSpaces_idem (p : Bytes) : skipSpaces (skipSpaces p) = skipSpaces p := by
  unfold skipSpaces
  exact List.dropWhile_idempotent xIsWs p

theorem spaced_append (symbol rest : Bytes) :
    spaced symbol ++ rest = ' '.toUInt8 :: (symbol ++ ' '.toUInt8 :: rest) := by
  unfold spaced
  simp only [List.cons_append, List.append_assoc, List.nil_append]

theorem symbol_begins {symbol : Nat × Bytes} (member : symbol ∈ symbols) (rest : Bytes) :
    skipSpaces (spaced symbol.2 ++ rest) = symbol.2 ++ ' '.toUInt8 :: rest := by
  rw [spaced_append]
  simp only [symbols, List.mem_cons, List.not_mem_nil, or_false] at member
  rcases member with rfl | rfl | rfl | rfl | rfl | rfl | rfl | rfl | rfl | rfl | rfl | rfl | rfl |
    rfl <;> rfl

theorem Follow.loosen {level wider : Nat} (le : level ≤ wider) {rest : Bytes}
    (follow : Follow level rest) : Follow wider rest := by
  cases follow with
  | nil => exact .nil
  | closing rest => exact .closing rest
  | filtered rest => exact .filtered rest
  | comma rest => exact .comma rest
  | operator symbol member looser rest =>
      exact .operator symbol member (Nat.lt_of_lt_of_le looser le) rest

theorem Follow.name {level : Nat} {rest : Bytes} (follow : Follow level rest) :
    xIsNamechar (byteAt rest) = false := by
  cases follow with
  | operator symbol member looser rest =>
      rw [spaced_append]
      exact (by decide : xIsNamechar ' '.toUInt8 = false)
  | nil => exact (by decide : xIsNamechar 0 = false)
  | closing rest => exact (by decide : xIsNamechar ')'.toUInt8 = false)
  | filtered rest => exact (by decide : xIsNamechar ']'.toUInt8 = false)
  | comma rest => exact (by decide : xIsNamechar ','.toUInt8 = false)

theorem symbol_head {symbol : Nat × Bytes} (member : symbol ∈ symbols) :
    symbol.2 ≠ [] ∧ byteAt symbol.2 ≠ '('.toUInt8 ∧ byteAt symbol.2 ≠ '/'.toUInt8 ∧
      byteAt symbol.2 ≠ '['.toUInt8 := by
  revert symbol
  decide

/-- Behind a text stands no call, no step and no filter. -/
theorem Follow.marks {level : Nat} {rest : Bytes} (follow : Follow level rest) :
    byteAt (skipSpaces rest) ≠ '('.toUInt8 ∧ byteAt (skipSpaces rest) ≠ '/'.toUInt8 ∧
      byteAt (skipSpaces rest) ≠ '['.toUInt8 := by
  have known : ∀ c : UInt8, c = 0 ∨ c = ')'.toUInt8 ∨ c = ']'.toUInt8 ∨ c = ','.toUInt8 →
      c ≠ '('.toUInt8 ∧ c ≠ '/'.toUInt8 ∧ c ≠ '['.toUInt8 := by
    rintro c (rfl | rfl | rfl | rfl) <;> exact ⟨by decide, by decide, by decide⟩
  cases follow with
  | operator symbol member looser rest =>
      rw [symbol_begins member, byteAt_append (symbol_head member).1]
      exact (symbol_head member).2
  | nil => exact known _ (.inl rfl)
  | closing rest => exact known _ (.inr (.inl rfl))
  | filtered rest => exact known _ (.inr (.inr (.inl rfl)))
  | comma rest => exact known _ (.inr (.inr (.inr rfl)))

/-- The operators of a level with two operands. -/
def operatorsAt : Nat → Bytes → Option (ExprType × Bytes)
  | 2 => eqOperator
  | 3 => relOperator
  | 4 => addOperator
  | _ => mulOperator

/-- The word between the operands of a level with many of them. -/
def separatorAt : Nat → Bytes
  | 0 => lit "or "
  | 1 => lit "and "
  | _ => lit "|"

theorem Follow.noOperator {level : Nat} (low : 2 ≤ level) (high : level ≤ 5) {rest : Bytes}
    (follow : Follow level rest) : operatorsAt level (skipSpaces rest) = none := by
  have cases : level = 2 ∨ level = 3 ∨ level = 4 ∨ level = 5 := by omega
  cases follow with
  | operator symbol member looser rest =>
      rw [symbol_begins member]
      simp only [symbols, List.mem_cons, List.not_mem_nil, or_false] at member
      rcases cases with rfl | rfl | rfl | rfl <;>
      · rcases member with rfl | rfl | rfl | rfl | rfl | rfl | rfl | rfl | rfl | rfl | rfl | rfl |
          rfl | rfl
        all_goals first | rfl | exact absurd looser (by decide)
  | nil | closing | filtered | comma => rcases cases with rfl | rfl | rfl | rfl <;> rfl

theorem Follow.noSeparator {level : Nat} (many : level = 0 ∨ level = 1 ∨ level = 7) {rest : Bytes}
    (follow : Follow level rest) : matchAt (separatorAt level) (skipSpaces rest) = none := by
  cases follow with
  | operator symbol member looser rest =>
      rw [symbol_begins member]
      simp only [symbols, List.mem_cons, List.not_mem_nil, or_false] at member
      rcases many with rfl | rfl | rfl <;>
      · rcases member with rfl | rfl | rfl | rfl | rfl | rfl | rfl | rfl | rfl | rfl | rfl | rfl |
          rfl | rfl
        all_goals first | rfl | exact absurd looser (by decide)
  | nil | closing | filtered | comma => rcases many with rfl | rfl | rfl <;> rfl

/-! ## From one level to the next -/

theorem levelParser_binary (depth : Nat) {level : Nat} (low : 2 ≤ level) (high : level ≤ 5) :
    levelParser depth level = leftOperators (levelParser depth (level + 1)) (operatorsAt level) := by
  have cases : level = 2 ∨ level = 3 ∨ level = 4 ∨ level = 5 := by omega
  rcases cases with rfl | rfl | rfl | rfl <;> rfl

theorem Opening.append {text : Bytes} (opening : Opening text) (more : Bytes) :
    Opening (text ++ more) where
  nonempty := List.append_ne_nil_of_left_ne_nil opening.nonempty more
  begins := by
    rw [byteAt_append opening.nonempty]
    exact opening.begins
  open_ := by
    rw [byteAt_append opening.nonempty]
    exact opening.open_

theorem NoCall.append {text : Bytes} (noCall : NoCall text) (more : Bytes) :
    NoCall (text ++ more) := by
  intro rest behind found
  rw [List.append_assoc] at found
  exact noCall _ behind found

theorem Opening.skip {text : Bytes} (opening : Opening text) (rest : Bytes) :
    skipSpaces (text ++ rest) = text ++ rest := by
  apply skipSpaces_of
  rw [byteAt_append opening.nonempty]
  exact opening.begins

/-- The parser of a level with many operands, in front of an opening. -/
theorem levelParser_many (depth : Nat) (junction : Junction) {text : Bytes} (opening : Opening text)
    (rest : Bytes) :
    levelParser depth junction.level (text ++ rest) =
      manyOperands (levelParser depth (junction.level + 1)) (separatorAt junction.level)
        junction.type (text ++ rest) := by
  have skip := opening.skip rest
  cases junction with
  | union =>
      change manyOperands (doNodeExpr (doOrExpr depth)) (lit "|") .union (skipSpaces (text ++ rest)) = _
      rw [skip]
      rfl
  | and => rfl
  | or =>
      change manyOperands (doAndExpr (doOrExpr depth)) (lit "or ") .or (skipSpaces (text ++ rest)) = _
      rw [skip]
      rfl

/-- Anything but a call of `not` is left to the unions. -/
theorem doNotExpr_operand (inner : Parser) (fuel : Nat) {text : Bytes} (opening : Opening text)
    (noCall : NoCall text) (rest : Bytes) : doNotExpr inner (fuel + 1) (text ++ rest) = doUnionExpr inner (text ++ rest) := by
  unfold doNotExpr
  simp only [opening.skip rest]
  cases found : matchAt (lit "not") (text ++ rest) with
  | none => rfl
  | some behind =>
      have plain := noCall rest behind found
      simp only [plain.1, plain.2, Bool.false_eq_true, or_self, if_false]

/-- A text without an operator of a level is read there as it is one level
further down. -/
theorem ReadsAt.step {level : Nat} {text : Bytes} {tree : Expr} (opening : Opening text)
    (noCall : level = 6 → NoCall text) (below : level < 8) (reads : ReadsAt (level + 1) text tree) : ReadsAt level text tree := by
  intro depth rest deep follow
  have read := reads depth rest deep (follow.loosen (Nat.le_succ level))
  have still := skipSpaces_idem rest
  have many : ∀ junction : Junction, junction.level = level →
      levelParser depth level (text ++ rest) = some (tree, skipSpaces rest) := by
    rintro junction rfl
    rw [levelParser_many depth junction opening]
    refine manyOperands_single read still (follow.noSeparator ?_)
    cases junction
    · exact .inr (.inr rfl)
    · exact .inr (.inl rfl)
    · exact .inl rfl
  by_cases binary : 2 ≤ level ∧ level ≤ 5
  · rw [levelParser_binary depth binary.1 binary.2]
    exact leftOperators_single read still (follow.noOperator binary.1 binary.2)
  · have cases : level = 0 ∨ level = 1 ∨ level = 6 ∨ level = 7 := by omega
    rcases cases with rfl | rfl | rfl | rfl
    · exact many .or rfl
    · exact many .and rfl
    · exact (doNotExpr_operand _ _ opening (noCall rfl) rest).trans read
    · exact many .union rfl

theorem ReadsAt.lower {level looser : Nat} {text : Bytes} {tree : Expr} (opening : Opening text)
    (noCall : 7 ≤ level → NoCall text) (top : level ≤ 8) (le : looser ≤ level)
    (reads : ReadsAt level text tree) :
    ReadsAt looser text tree := by
  induction level with
  | zero =>
      rw [Nat.le_zero.mp le]
      exact reads
  | succ level inductionHypothesis =>
      rcases Nat.lt_or_eq_of_le le with less | same
      · refine inductionHypothesis (fun high => noCall (Nat.le_succ_of_le high))
          (Nat.le_of_succ_le top) (Nat.le_of_lt_succ less) (reads.step opening ?_ top)
        exact fun six => noCall (by omega)
      · rw [same]
        exact reads

/-! ## Numbers -/

theorem decimal_digit {value : Nat} (small : value < 10) :
    isDigit (UInt8.ofNat (value + 48)) = true ∧ digitValue (UInt8.ofNat (value + 48)) = value := by
  revert value
  decide

theorem decimal_ne_nil (value : Nat) : decimal value ≠ [] := by
  unfold decimal
  split
  · exact List.cons_ne_nil _ _
  · exact List.append_ne_nil_of_right_ne_nil _ (List.cons_ne_nil _ _)

theorem decimal_isDigit (value : Nat) : ∀ c ∈ decimal value, isDigit c = true := by
  induction value using decimal.induct with
  | case1 value small =>
      intro c member
      rw [decimal, if_pos small, List.mem_singleton] at member
      rw [member]
      exact (decimal_digit small).1
  | case2 value large inductionHypothesis =>
      intro c member
      rw [decimal, if_neg large, List.mem_append, List.mem_singleton] at member
      rcases member with front | rfl
      · exact inductionHypothesis c front
      · exact (decimal_digit (Nat.mod_lt value (by decide))).1

theorem digitsValue_decimal (value : Nat) : digitsValue 10 (decimal value) = value := by
  induction value using decimal.induct with
  | case1 value small =>
      rw [decimal, if_pos small]
      exact (Nat.zero_add _).trans (decimal_digit small).2
  | case2 value large inductionHypothesis =>
      have last := (decimal_digit (Nat.mod_lt value (by decide))).2
      rw [decimal, if_neg large]
      unfold digitsValue at inductionHypothesis ⊢
      rw [List.foldl_append, inductionHypothesis, List.foldl_cons, List.foldl_nil, last]
      omega

/-- What a digit is not. -/
theorem isDigit_spec {c : UInt8} (digit : isDigit c = true) :
    isSpace c = false ∧ digitValue c < 10 ∧ c ≠ '-'.toUInt8 ∧ c ≠ '+'.toUInt8 ∧ c ≠ '.'.toUInt8 ∧
      xIsNamechar c = true ∧ xIsWs c = false ∧ c ≠ 'n'.toUInt8 ∧ c ≠ '\''.toUInt8 ∧
      c ≠ '('.toUInt8 ∧ c ≠ ')'.toUInt8 := by
  have range : 48 ≤ c.toNat ∧ c.toNat ≤ 57 := by
    unfold isDigit at digit
    rw [Bool.and_eq_true, decide_eq_true_eq, decide_eq_true_eq] at digit
    exact ⟨UInt8.le_iff_toNat_le.mp digit.1, UInt8.le_iff_toNat_le.mp digit.2⟩
  have all : ∀ n, 48 ≤ n ∧ n ≤ 57 → c = UInt8.ofNat n → isSpace c = false ∧ digitValue c < 10 ∧
      c ≠ '-'.toUInt8 ∧ c ≠ '+'.toUInt8 ∧ c ≠ '.'.toUInt8 ∧ xIsNamechar c = true ∧
      xIsWs c = false ∧ c ≠ 'n'.toUInt8 ∧ c ≠ '\''.toUInt8 ∧ c ≠ '('.toUInt8 ∧
      c ≠ ')'.toUInt8 := by
    intro n bounds same
    have cases : n = 48 ∨ n = 49 ∨ n = 50 ∨ n = 51 ∨ n = 52 ∨ n = 53 ∨ n = 54 ∨ n = 55 ∨ n = 56 ∨
        n = 57 := by omega
    rw [same]
    rcases cases with rfl | rfl | rfl | rfl | rfl | rfl | rfl | rfl | rfl | rfl <;> decide
  exact all c.toNat range (UInt8.ofNat_toNat).symm

/-- A run of digits is read whole. -/
theorem digitsAt_append {digits rest : Bytes} (all : ∀ c ∈ digits, isDigit c = true)
    (stop : rest = [] ∨ decide (digitValue (byteAt rest) < 10) = false) :
    digitsAt 10 (digits ++ rest) = (digits, rest) := by
  have run := @span_append (fun c => decide (digitValue c < 10)) digits rest
    (fun c member => decide_eq_true (isDigit_spec (all c member)).2.1) stop
  unfold digitsAt
  rw [List.span_eq_takeWhile_dropWhile, run.1, run.2]

theorem digitsAt_digits {digits : Bytes} (all : ∀ c ∈ digits, isDigit c = true) :
    digitsAt 10 digits = (digits, []) := by
  have whole := @digitsAt_append digits [] all (.inl rfl)
  rw [List.append_nil] at whole
  exact whole

theorem atol_digits {digits : Bytes} (all : ∀ c ∈ digits, isDigit c = true)
    (small : digitsValue 10 digits < 2 ^ 63) : atol digits = digitsValue 10 digits := by
  have whole := digitsAt_digits all
  have start : digits.dropWhile isSpace = digits ∧ byteAt digits ≠ '-'.toUInt8 ∧
      byteAt digits ≠ '+'.toUInt8 := by
    cases digits with
    | nil => exact ⟨rfl, by decide, by decide⟩
    | cons c digits =>
        have first := isDigit_spec (all c List.mem_cons_self)
        refine ⟨?_, first.2.2.1, first.2.2.2.1⟩
        rw [List.dropWhile_cons, first.1]
        rfl
  unfold atol
  simp only [start.1, start.2.1, start.2.2, or_self, if_false, whole]
  omega

theorem atol_decimal (value : Fin (2 ^ 63)) : atol (decimal value.val) = value.val := by
  have small : digitsValue 10 (decimal value.val) < 2 ^ 63 := by
    rw [digitsValue_decimal]
    exact value.isLt
  rw [atol_digits (decimal_isDigit value.val) small, digitsValue_decimal]

/-! ## Atoms -/

theorem NoCall.of_byte {text : Bytes} (nonempty : text ≠ [])
    (different : byteAt text ≠ 'n'.toUInt8) : NoCall text := by
  intro rest behind found
  rw [matchAt_not_of_byte (by rw [byteAt_append nonempty]; exact different)] at found
  cases found

/-- A text that `do_node2_expr` takes for a number. -/
theorem Atom.number {c : UInt8} {text : Bytes} {tree : Expr}
    (plain : xIsWs c = false ∧ c ≠ ')'.toUInt8 ∧ c ≠ 'n'.toUInt8 ∧ c ≠ '\''.toUInt8 ∧
      c ≠ '('.toUInt8)
    (can : ∀ rest, xCanNumber (c :: (text ++ rest)) = true)
    (reads : ∀ rest, xIsNamechar (byteAt rest) = false →
      numberExpr (c :: (text ++ rest)) = some (tree, skipSpaces rest)) : Atom (c :: text) tree where
  nonempty := List.cons_ne_nil c text
  begins := plain.1
  open_ := plain.2.1
  noCall := .of_byte (List.cons_ne_nil c text) plain.2.2.1
  reads := by
    intro depth rest _ stop
    have begins : skipSpaces (c :: (text ++ rest)) = c :: (text ++ rest) := skipSpaces_of plain.1
    have here : byteAt (c :: (text ++ rest)) = c := rfl
    refine ⟨skipSpaces rest, skipSpaces_idem rest, ?_⟩
    rw [List.cons_append]
    unfold doNode2Expr
    simp only [begins, here, plain.2.2.2.1, plain.2.2.2.2, if_false, can, if_true]
    exact reads rest stop

/-- What does not prolong a name prolongs no number. -/
theorem no_digit_of_no_namechar {rest : Bytes} (stop : xIsNamechar (byteAt rest) = false) :
    isDigit (byteAt rest) = false ∧ byteAt rest ≠ '.'.toUInt8 := by
  constructor
  · cases digit : isDigit (byteAt rest) with
    | false => rfl
    | true => exact absurd ((isDigit_spec digit).2.2.2.2.2.1) (by rw [stop]; decide)
  · intro same
    rw [same] at stop
    exact absurd stop (by decide)

/-- Without a point a number is an integer. -/
theorem numberExpr_digits (c : UInt8) {digits rest : Bytes} (all : ∀ b ∈ digits, isDigit b = true)
    (stop : xIsNamechar (byteAt rest) = false) :
    numberExpr (c :: (digits ++ rest)) =
      some (.leaf { type := .int, integer := atol (c :: digits) }, skipSpaces rest) := by
  have ends := no_digit_of_no_namechar stop
  have run := span_append all (.inr ends.1)
  have front : (c :: (digits ++ rest)).take 1 ++ (digits ++ rest).takeWhile isDigit =
      c :: digits := by
    rw [run.1]
    rfl
  unfold numberExpr
  simp only [List.tail_cons, run.2, ends.2, if_false, front]

theorem Atom.integer (value : Fin (2 ^ 63)) :
    Atom (decimal value.val) (Term.integer value).tree := by
  have digits := decimal_isDigit value.val
  have number := atol_decimal value
  have nonempty := decimal_ne_nil value.val
  generalize decimal value.val = text at digits number nonempty
  cases text with
  | nil => exact absurd rfl nonempty
  | cons c text =>
      have first := isDigit_spec (digits c List.mem_cons_self)
      have later : ∀ b ∈ text, isDigit b = true := fun b member =>
        digits b (List.mem_cons_of_mem c member)
      refine .number ⟨first.2.2.2.2.2.2.1, first.2.2.2.2.2.2.2.2.2.2, first.2.2.2.2.2.2.2.1,
        first.2.2.2.2.2.2.2.2.1, first.2.2.2.2.2.2.2.2.2.1⟩ ?_ ?_
      · intro rest
        have here : byteAt (c :: (text ++ rest)) = c := rfl
        unfold xCanNumber
        simp only [here, first.2.2.1, first.2.2.2.2.1, if_false]
        exact digits c List.mem_cons_self
      · intro rest stop
        rw [numberExpr_digits c later stop, number]
        rfl

theorem Atom.text (content : Quotable) :
    Atom ('\''.toUInt8 :: content.bytes ++ ['\''.toUInt8]) (Term.text content).tree := by
  refine ⟨⟨List.cons_ne_nil _ _, (by decide : xIsWs '\''.toUInt8 = false),
    (by decide : '\''.toUInt8 ≠ ')'.toUInt8)⟩, .of_byte (List.cons_ne_nil _ _)
      (by decide : '\''.toUInt8 ≠ 'n'.toUInt8), ?_⟩
  intro depth rest _ _
  refine ⟨skipSpaces rest, skipSpaces_idem rest, ?_⟩
  have inner : ∀ c ∈ content.bytes, decide (c ≠ '\''.toUInt8) = true := fun c member =>
    decide_eq_true fun same => content.noQuote (same ▸ member)
  have run := @span_append _ _ ('\''.toUInt8 :: rest) inner (.inr rfl)
  have whole : '\''.toUInt8 :: content.bytes ++ ['\''.toUInt8] ++ rest =
      '\''.toUInt8 :: (content.bytes ++ '\''.toUInt8 :: rest) := by
    simp only [List.cons_append, List.append_assoc, List.nil_append]
  have begins : skipSpaces ('\''.toUInt8 :: (content.bytes ++ '\''.toUInt8 :: rest)) =
      '\''.toUInt8 :: (content.bytes ++ '\''.toUInt8 :: rest) :=
    skipSpaces_of (by decide : xIsWs '\''.toUInt8 = false)
  have here : byteAt ('\''.toUInt8 :: (content.bytes ++ '\''.toUInt8 :: rest)) = '\''.toUInt8 := rfl
  rw [whole]
  unfold doNode2Expr
  simp only [begins, here, if_true, List.tail_cons, run.1, run.2]
  rfl

theorem Atom.variable_ (name : PlainName) :
    Atom ('$'.toUInt8 :: name.val) (Term.variable_ name).tree := by
  refine ⟨⟨List.cons_ne_nil _ _, (by decide : xIsWs '$'.toUInt8 = false),
    (by decide : '$'.toUInt8 ≠ ')'.toUInt8)⟩, .of_byte (List.cons_ne_nil _ _)
      (by decide : '$'.toUInt8 ≠ 'n'.toUInt8), ?_⟩
  intro depth rest _ stop
  refine ⟨skipSpaces rest, skipSpaces_idem rest, ?_⟩
  change doVarExpr .var (name.val ++ rest) = _
  unfold doVarExpr
  rw [nameAt_append name.property stop]
  rfl

/-- Brackets make an atom of any expression. -/
theorem Atom.bracketed {text : Bytes} {tree : Expr} (reads : ReadsAt 0 text tree) :
    Atom ('('.toUInt8 :: text ++ [')'.toUInt8]) tree := by
  refine ⟨⟨List.cons_ne_nil _ _, (by decide : xIsWs '('.toUInt8 = false),
    (by decide : '('.toUInt8 ≠ ')'.toUInt8)⟩, .of_byte (List.cons_ne_nil _ _)
      (by decide : '('.toUInt8 ≠ 'n'.toUInt8), ?_⟩
  intro depth rest deep _
  rw [List.length_append, List.length_cons, List.length_singleton] at deep
  refine ⟨skipSpaces rest, skipSpaces_idem rest, ?_⟩
  cases depth with
  | zero => omega
  | succ depth =>
      have read : doOrExpr (depth + 1) (text ++ ')'.toUInt8 :: rest) =
          some (tree, ')'.toUInt8 :: rest) := reads depth _ (by omega) (.closing rest)
      have whole : '('.toUInt8 :: text ++ [')'.toUInt8] ++ rest =
          '('.toUInt8 :: (text ++ ')'.toUInt8 :: rest) := by
        simp only [List.cons_append, List.append_assoc, List.nil_append]
      rw [whole]
      change (doOrExpr (depth + 1) (text ++ ')'.toUInt8 :: rest) >>= fun found => _) = _
      rw [read]
      rfl

/-! ## Calls -/

/-- Every argument is read up to the comma or the bracket behind it. -/
theorem callArguments_printed (depth : Nat) {arguments : List (Bytes × Expr)}
    (opening : ∀ argument ∈ arguments, Opening argument.1)
    (reads : ∀ argument ∈ arguments, ReadsAt 0 argument.1 argument.2)
    (there : ∀ argument ∈ arguments, argument.2 ≠ .null)
    (rest : Bytes) (fuel : Nat)
    (deep : (separated (lit ",") (arguments.map Prod.fst)).length ≤ depth)
    (enough : (separated (lit ",") (arguments.map Prod.fst)).length < fuel) :
    callArguments (doOrExpr (depth + 1)) fuel
        (separated (lit ",") (arguments.map Prod.fst) ++ ')'.toUInt8 :: rest) =
      some (arguments.map Prod.snd, rest) := by
  induction arguments generalizing fuel with
  | nil =>
      cases fuel with
      | zero => cases enough
      | succ fuel => rfl
  | cons first others inductionHypothesis =>
      have begins := opening first List.mem_cons_self
      have known := there first List.mem_cons_self
      cases fuel with
      | zero => cases enough
      | succ fuel =>
          have continues : ∀ more, byteAt (first.1 ++ more) ≠ ')'.toUInt8 := by
            intro more
            rw [byteAt_append begins.nonempty]
            exact begins.open_
          cases others with
          | nil =>
              have read : doOrExpr (depth + 1) (first.1 ++ ')'.toUInt8 :: rest) =
                  some (first.2, ')'.toUInt8 :: rest) :=
                reads first List.mem_cons_self depth _ deep (.closing rest)
              have positive : 0 < first.1.length := List.length_pos_of_ne_nil begins.nonempty
              change callArguments _ _ (first.1 ++ ')'.toUInt8 :: rest) = _
              unfold callArguments
              simp only [begins.skip, continues, if_false, read, Option.bind_eq_bind,
                Option.bind_some]
              cases fuel with
              | zero =>
                  change first.1.length < 1 at enough
                  omega
              | succ fuel =>
                  change (some (if first.2 = .null then [] else [first.2], rest)) = _
                  rw [if_neg known]
                  rfl
          | cons second others =>
              have shape : separated (lit ",") ((first :: second :: others).map Prod.fst) =
                  first.1 ++ ','.toUInt8 :: separated (lit ",") ((second :: others).map Prod.fst) := by
                change first.1 ++ lit "," ++ separated (lit ",") ((second :: others).map Prod.fst) = _
                rw [List.append_assoc]
                rfl
              rw [shape, List.length_append, List.length_cons] at deep enough
              have read : doOrExpr (depth + 1) (first.1 ++ (','.toUInt8 ::
                  (separated (lit ",") ((second :: others).map Prod.fst) ++ ')'.toUInt8 :: rest))) =
                  some (first.2, ','.toUInt8 ::
                    (separated (lit ",") ((second :: others).map Prod.fst) ++ ')'.toUInt8 :: rest)) :=
                reads first List.mem_cons_self depth _ (by omega) (.comma _)
              have later := inductionHypothesis
                (fun argument member => opening argument (List.mem_cons_of_mem _ member))
                (fun argument member => reads argument (List.mem_cons_of_mem _ member))
                (fun argument member => there argument (List.mem_cons_of_mem _ member)) fuel
                (by omega) (by omega)
              have comma : skipSpaces (','.toUInt8 ::
                  (separated (lit ",") ((second :: others).map Prod.fst) ++ ')'.toUInt8 :: rest)) =
                  ','.toUInt8 :: (separated (lit ",") ((second :: others).map Prod.fst) ++
                    ')'.toUInt8 :: rest) := skipSpaces_of (by decide : xIsWs ','.toUInt8 = false)
              have here : byteAt (','.toUInt8 ::
                  (separated (lit ",") ((second :: others).map Prod.fst) ++ ')'.toUInt8 :: rest)) =
                  ','.toUInt8 := rfl
              rw [shape, List.append_assoc, List.cons_append]
              unfold callArguments
              simp only [begins.skip, continues, if_false, read, Option.bind_eq_bind,
                Option.bind_some, comma, here, if_true, List.tail_cons, later, known]
              rfl

/-- The name of a function other than `not` is no call of `not`. -/
theorem noCall_of_name {name : Bytes} (named : IsName name) (other : name ≠ lit "not")
    (more : Bytes) : NoCall (name ++ '('.toUInt8 :: more) := by
  intro rest behind found
  have whole := Parse.matchAt_eq_some (by decide) (by decide) found
  rw [List.append_assoc] at whole
  rcases List.append_eq_append_iff.mp whole with ⟨front, same, tail⟩ | ⟨front, same, tail⟩
  · cases front with
    | nil =>
        rw [List.append_nil] at same
        exact absurd same.symm other
    | cons c front =>
        have bracket : c = '('.toUInt8 := ((List.cons.inj tail).1).symm
        have member : c ∈ lit "not" := by
          rw [same]
          exact List.mem_append_right _ List.mem_cons_self
        rw [bracket] at member
        exact absurd member (by decide)
  · cases front with
    | nil =>
        rw [List.append_nil] at same
        exact absurd same other
    | cons c front =>
        have char : xIsNamechar c = true :=
          named.chars c (same ▸ List.mem_append_right _ List.mem_cons_self)
        rw [tail]
        change c ≠ '('.toUInt8 ∧ xIsWs c = false
        refine ⟨fun wrong => absurd char (by rw [wrong]; decide), ?_⟩
        cases white : xIsWs c with
        | false => rfl
        | true =>
            unfold xIsWs at white
            simp only [Bool.or_eq_true, decide_eq_true_eq] at white
            rcases white with ((same | same) | same) | same <;>
            · rw [same] at char
              exact absurd char (by decide)

theorem Atom.call (name : PlainName) (other : name.val ≠ lit "not")
    {arguments : List (Bytes × Expr)} (opening : ∀ argument ∈ arguments, Opening argument.1)
    (reads : ∀ argument ∈ arguments, ReadsAt 0 argument.1 argument.2)
    (there : ∀ argument ∈ arguments, argument.2 ≠ .null) :
    Atom (name.val ++ '('.toUInt8 :: separated (lit ",") (arguments.map Prod.fst) ++ [')'.toUInt8])
      (.node { type := .call, name := some name.val } (.chained (arguments.map Prod.snd)) .null) := by
  have named := name.property
  have shape : ∀ rest : Bytes, name.val ++ '('.toUInt8 :: separated (lit ",")
      (arguments.map Prod.fst) ++ [')'.toUInt8] ++ rest = name.val ++ '('.toUInt8 ::
        (separated (lit ",") (arguments.map Prod.fst) ++ ')'.toUInt8 :: rest) := by
    intro rest
    simp only [List.append_assoc, List.cons_append, List.nil_append]
  have head := fun rest => (named.head rest).1
  have mark : ∀ {c : UInt8}, xIsNamechar c = false → byteAt name.val ≠ c := fun marks =>
    named.not_mark marks
  refine ⟨⟨?_, ?_, ?_⟩, ?_, ?_⟩
  · exact List.append_ne_nil_of_left_ne_nil (List.append_ne_nil_of_left_ne_nil named.ne_nil _) _
  · rw [List.append_assoc, head]
    exact named.not_white
  · rw [List.append_assoc, head]
    exact mark (by decide)
  · exact (noCall_of_name named other _).append _
  · intro depth rest deep _
    refine ⟨rest, rfl, ?_⟩
    rw [List.length_append, List.length_append, List.length_cons, List.length_singleton] at deep
    cases depth with
    | zero => omega
    | succ depth =>
        rw [shape]
        generalize behind : separated (lit ",") (arguments.map Prod.fst) ++ ')'.toUInt8 :: rest = inner
        have begins : byteAt (name.val ++ '('.toUInt8 :: inner) = byteAt name.val := head _
        have still : skipSpaces (name.val ++ '('.toUInt8 :: inner) = name.val ++ '('.toUInt8 :: inner :=
          skipSpaces_of (by rw [begins]; exact named.not_white)
        have number : xCanNumber (name.val ++ '('.toUInt8 :: inner) = false := by
          unfold xCanNumber
          simp only [begins, (named.head []).2.2.2.1, (named.head []).2.2.2.2, if_false]
          exact (named.head []).2.2.1
        have selects : xIsSelchar (byteAt name.val) = true := by
          unfold xIsSelchar
          rw [(named.head []).2.1]
          rfl
        have stop : xIsNamechar (byteAt ('('.toUInt8 :: inner)) = false :=
          (by decide : xIsNamechar '('.toUInt8 = false)
        have bracket : skipSpaces ('('.toUInt8 :: inner) = '('.toUInt8 :: inner :=
          skipSpaces_of (by decide : xIsWs '('.toUInt8 = false)
        have here : byteAt ('('.toUInt8 :: inner) = '('.toUInt8 := rfl
        have read := callArguments_printed depth opening reads there rest
          (('('.toUInt8 :: inner).length + 1) (by omega)
          (by rw [← behind, List.length_cons, List.length_append]; omega)
        rw [behind] at read
        have linked : Expr.link (arguments.map Prod.snd) = some (.chained (arguments.map Prod.snd)) := by
          apply Expr.link_eq_chained
          intro expr member
          rcases List.mem_map.mp member with ⟨argument, found, rfl⟩
          exact there argument found
        have selected : doSelectExpr (doOrExpr (depth + 1)) (name.val ++ '('.toUInt8 :: inner) =
            some (.node { type := .call, name := some name.val }
              (.chained (arguments.map Prod.snd)) .null, rest) := by
          unfold doSelectExpr
          simp only [still, begins, mark (show xIsNamechar '*'.toUInt8 = false by decide),
            (named.head []).2.2.2.2, mark (show xIsNamechar '/'.toUInt8 = false by decide),
            mark (show xIsNamechar '@'.toUInt8 = false by decide), if_false,
            axisAt_name named stop]
          unfold nameTest
          simp only [nameAt_append named stop, Option.bind_eq_bind, Option.bind_some, bracket, here,
            if_true, List.tail_cons, read, linked]
        unfold doNode2Expr
        simp only [still, begins, mark (show xIsNamechar '\''.toUInt8 = false by decide),
          mark (show xIsNamechar '('.toUInt8 = false by decide), number,
          mark (show xIsNamechar '$'.toUInt8 = false by decide),
          mark (show xIsNamechar '@'.toUInt8 = false by decide), selects,
          mark (show xIsNamechar '/'.toUInt8 = false by decide), if_false, if_true,
          Bool.false_eq_true, selected, Option.bind_eq_bind, Option.bind_some]
        rfl

/-! ## Steps and filters -/

/-- The loop over the steps ends in front of what may follow. -/
theorem nodeSteps_follow {inner : Parser} {fuel : Nat} (tree : Expr) {level : Nat}
    {left rest : Bytes} (same : skipSpaces left = skipSpaces rest) (follow : Follow level rest) :
    nodeSteps inner (fuel + 1) tree left = some (tree, skipSpaces rest) := by
  unfold nodeSteps
  simp only [same, follow.marks.2.1, follow.marks.2.2, if_false]

theorem Atom.readsAt {text : Bytes} {tree : Expr} (atom : Atom text tree) :
    ReadsAt 8 text tree := by
  intro depth rest deep follow
  rcases atom.reads depth rest deep follow.name with ⟨left, same, read⟩
  change doNodeExpr (doOrExpr depth) (text ++ rest) = _
  unfold doNodeExpr
  rw [read]
  exact nodeSteps_follow tree same follow

/-- One turn of the loop on an atom. -/
theorem Atom.extend {text : Bytes} {tree : Expr} (atom : Atom text tree) {more : Bytes}
    {grown : Expr} (mark : byteAt more = '/'.toUInt8 ∨ byteAt more = '['.toUInt8)
    (turn : ∀ depth rest fuel, more.length ≤ depth → Follow 8 rest → Exists fun left =>
      skipSpaces left = skipSpaces rest ∧
        nodeSteps (doOrExpr depth) (fuel + 1) tree (more ++ rest) =
          nodeSteps (doOrExpr depth) fuel grown left) :
    ReadsAt 8 (text ++ more) grown := by
  intro depth rest deep follow
  rw [List.length_append] at deep
  have nonempty : more ≠ [] := by
    rintro rfl
    exact absurd mark (by decide)
  have begins : xIsNamechar (byteAt (more ++ rest)) = false ∧
      skipSpaces (more ++ rest) = more ++ rest := by
    rw [byteAt_append nonempty]
    have white : xIsWs (byteAt (more ++ rest)) = false := by
      rw [byteAt_append nonempty]
      rcases mark with same | same <;>
      · rw [same]
        decide
    refine ⟨?_, skipSpaces_of white⟩
    rcases mark with same | same <;>
    · rw [same]
      decide
  rcases atom.reads depth (more ++ rest) (by omega) begins.1 with ⟨left, same, read⟩
  rcases turn depth rest left.length (by omega) follow with ⟨behind, ends, turned⟩
  have moved : nodeSteps (doOrExpr depth) (left.length + 1) tree left =
      nodeSteps (doOrExpr depth) (left.length + 1) tree (more ++ rest) := by
    unfold nodeSteps
    simp only [same]
  have longer : 0 < left.length := by
    have grows : (skipSpaces left).length ≤ left.length := (List.dropWhile_sublist _).length_le
    rw [same, begins.2, List.length_append] at grows
    have positive := List.length_pos_of_ne_nil nonempty
    omega
  change doNodeExpr (doOrExpr depth) (text ++ more ++ rest) = _
  rw [List.append_assoc]
  unfold doNodeExpr
  rw [read]
  change nodeSteps (doOrExpr depth) (left.length + 1) tree left = _
  rw [moved, turned, ← Nat.succ_pred_eq_of_pos longer]
  exact nodeSteps_follow grown ends follow

theorem nameTest_follow (inner : Parser) {name : Bytes} (named : IsName name) {level : Nat}
    {rest : Bytes} (follow : Follow level rest) (result : Option ExprType) :
    nameTest inner result (name ++ rest) = some (match result with
      | none => .leaf { type := .select, name := some name, kind := some (.named name) }
      | some type => .leaf { type := type, name := some name }, skipSpaces rest) := by
  unfold nameTest
  simp only [nameAt_append named follow.name, Option.bind_eq_bind, Option.bind_some,
    follow.marks.1, if_false]
  cases result <;> rfl

theorem ReadsAt.child {text : Bytes} {tree : Expr} (atom : Atom text tree) (name : PlainName) :
    ReadsAt 8 (text ++ (slash ++ name.val)) (.selectStep name.val tree) := by
  refine atom.extend (.inl rfl) ?_
  intro depth rest fuel _ follow
  refine ⟨skipSpaces rest, skipSpaces_idem rest, ?_⟩
  have named := name.property
  have here := (named.head rest).1
  have selected : doSelectExpr (doOrExpr depth) (name.val ++ rest) =
      some (.leaf { type := .select, name := some name.val, kind := some (.named name.val) },
        skipSpaces rest) := by
    unfold doSelectExpr
    simp only [skipSpaces_of (here ▸ named.not_white), here,
      named.not_mark (show xIsNamechar '*'.toUInt8 = false by decide), (named.head []).2.2.2.2,
      named.not_mark (show xIsNamechar '/'.toUInt8 = false by decide),
      named.not_mark (show xIsNamechar '@'.toUInt8 = false by decide), if_false,
      axisAt_name named follow.name]
    exact nameTest_follow _ named follow none
  change (doSelectExpr (doOrExpr depth) (name.val ++ rest) >>= fun found => _) = _
  rw [selected]
  rfl

theorem ReadsAt.attribute_ {text : Bytes} {tree : Expr} (atom : Atom text tree) (name : PlainName) :
    ReadsAt 8 (text ++ (slash ++ '@'.toUInt8 :: name.val))
      (.node { type := .attr, name := some name.val } tree .null) := by
  refine atom.extend (.inl rfl) ?_
  intro depth rest fuel _ follow
  refine ⟨skipSpaces rest, skipSpaces_idem rest, ?_⟩
  have named := name.property
  have other : byteAt (name.val ++ rest) ≠ '*'.toUInt8 := by
    rw [(named.head rest).1]
    exact named.not_mark (by decide)
  have selected : doSelectExpr (doOrExpr depth) ('@'.toUInt8 :: (name.val ++ rest)) =
      some (.leaf { type := .attr, name := some name.val }, skipSpaces rest) := by
    change (if byteAt (name.val ++ rest) = '*'.toUInt8 then _ else _) = _
    rw [if_neg other]
    exact nameTest_follow _ named follow (some .attr)
  change (doSelectExpr (doOrExpr depth) ('@'.toUInt8 :: (name.val ++ rest)) >>= fun found => _) = _
  rw [selected]
  rfl

theorem ReadsAt.filter {text inner : Bytes} {tree predicate : Expr} (atom : Atom text tree)
    (there : tree ≠ .null) (reads : ReadsAt 0 inner predicate) :
    ReadsAt 8 (text ++ '['.toUInt8 :: (inner ++ [']'.toUInt8]))
      (.node { type := .filter } (tree.withNext predicate) .null) := by
  refine atom.extend (.inr rfl) ?_
  intro depth rest fuel deep _
  refine ⟨rest, rfl, ?_⟩
  rw [List.length_cons, List.length_append] at deep
  cases depth with
  | zero => omega
  | succ depth =>
      have read : doOrExpr (depth + 1) (inner ++ ']'.toUInt8 :: rest) =
          some (predicate, ']'.toUInt8 :: rest) := reads depth _ (by omega) (.filtered rest)
      rw [List.cons_append, List.append_assoc]
      change (doOrExpr (depth + 1) (inner ++ ']'.toUInt8 :: rest) >>= fun found => _) = _
      rw [read]
      simp only [Option.bind_eq_bind, Option.bind_some, Expr.setNext_of_ne_null there]
      rfl

/-! ## Operators -/

/-- The call of `not` takes the brackets behind it as its operand. -/
theorem ReadsAt.not {text : Bytes} {tree : Expr}
    (atom : Atom ('('.toUInt8 :: text ++ [')'.toUInt8]) tree) :
    ReadsAt 6 (lit "not(" ++ text ++ [')'.toUInt8]) (.node { type := .not } tree .null) := by
  intro depth rest deep follow
  have longer : (lit "not(" ++ text ++ [')'.toUInt8]).length =
      ('('.toUInt8 :: text ++ [')'.toUInt8]).length + 3 := by
    simp only [List.length_append, List.length_cons]
    change 4 + _ + _ = _
    omega
  have union : ReadsAt 7 ('('.toUInt8 :: text ++ [')'.toUInt8]) tree :=
    atom.readsAt.step atom.toOpening nofun (by decide)
  have read := union depth rest (by omega) (follow.loosen (by decide))
  have operand := doNotExpr_operand (doOrExpr depth)
    ('o'.toUInt8 :: 't'.toUInt8 :: ('('.toUInt8 :: text ++ [')'.toUInt8] ++ rest)).length
    atom.toOpening atom.noCall rest
  have skip := atom.toOpening.skip rest
  change (doNotExpr (doOrExpr depth)
    (('o'.toUInt8 :: 't'.toUInt8 :: ('('.toUInt8 :: text ++ [')'.toUInt8] ++ rest)).length + 1)
    (skipSpaces ('('.toUInt8 :: text ++ [')'.toUInt8] ++ rest)) >>= fun found => _) = _
  rw [skip, operand, show doUnionExpr (doOrExpr depth) _ = _ from read]
  rfl

/-- The loop of a level with two operands has read a text and goes on with a
tree. -/
def ReadsLeft (level : Nat) (text : Bytes) (tree : Expr) : Prop :=
  ∀ depth rest, text.length ≤ depth → Follow (level + 1) rest → Exists fun fuel =>
    (skipSpaces rest).length < fuel ∧
      leftOperators (levelParser depth (level + 1)) (operatorsAt level) (text ++ rest) =
        furtherOperators (levelParser depth (level + 1)) (operatorsAt level) fuel tree rest

theorem furtherOperators_skip {sub : Parser} {operator : Bytes → Option (ExprType × Bytes)}
    (fuel : Nat) (tree : Expr) {left rest : Bytes} (same : skipSpaces left = skipSpaces rest) :
    furtherOperators sub operator fuel tree left = furtherOperators sub operator fuel tree rest := by
  cases fuel with
  | zero => rfl
  | succ fuel =>
      unfold furtherOperators
      simp only [same]

theorem ReadsAt.left {level : Nat} {text : Bytes} {tree : Expr}
    (reads : ReadsAt (level + 1) text tree) : ReadsLeft level text tree := by
  intro depth rest deep follow
  refine ⟨(skipSpaces rest).length + 1, Nat.lt_succ_self _, ?_⟩
  unfold leftOperators
  rw [reads depth rest deep follow]
  exact furtherOperators_skip _ _ (skipSpaces_idem rest)

/-- A level's own operator is found, and only white space may be left of it. -/
theorem operatorsAt_symbol (operator : Operator) (more : Bytes) : Exists fun left =>
    operatorsAt operator.level (operator.symbol ++ ' '.toUInt8 :: more) = some (operator.type, left) ∧
      skipSpaces left = skipSpaces more := by
  cases operator <;> exact ⟨_, rfl, rfl⟩

theorem Operator.symbol_mem (operator : Operator) : (operator.level, operator.symbol) ∈ symbols := by
  cases operator <;> decide

theorem ReadsLeft.extend {text right : Bytes} {tree operand : Expr} {operator : Operator}
    (reads : ReadsLeft operator.level text tree) (there : tree ≠ .null) (opening : Opening right)
    (readsRight : ReadsAt (operator.level + 1) right operand) :
    ReadsLeft operator.level (text ++ spaced operator.symbol ++ right)
      (.node { type := operator.type } (tree.withNext operand) .null) := by
  intro depth rest deep follow
  rw [List.length_append, List.length_append] at deep
  have member := operator.symbol_mem
  rcases reads depth (spaced operator.symbol ++ (right ++ rest)) (by omega)
    (.operator _ member (Nat.lt_succ_self _) _) with ⟨fuel, enough, read⟩
  have begins : skipSpaces (spaced operator.symbol ++ (right ++ rest)) =
      operator.symbol ++ ' '.toUInt8 :: (right ++ rest) := symbol_begins member _
  rcases operatorsAt_symbol operator (right ++ rest) with ⟨left, found, same⟩
  rw [begins, List.length_append, List.length_cons, List.length_append] at enough
  have shorter : (skipSpaces rest).length ≤ rest.length := (List.dropWhile_sublist _).length_le
  cases fuel with
  | zero => omega
  | succ fuel =>
      refine ⟨fuel, by omega, ?_⟩
      rw [List.append_assoc, List.append_assoc, read]
      conv_lhs => unfold furtherOperators
      simp only [begins, found, same, opening.skip, Option.bind_eq_bind,
        readsRight depth rest (by omega) follow, Option.bind_some, Expr.setNext_of_ne_null there]
      exact furtherOperators_skip _ _ (skipSpaces_idem rest)

theorem ReadsLeft.readsAt {level : Nat} (low : 2 ≤ level) (high : level ≤ 5) {text : Bytes}
    {tree : Expr} (reads : ReadsLeft level text tree) : ReadsAt level text tree := by
  intro depth rest deep follow
  rcases reads depth rest deep (follow.loosen (Nat.le_succ level)) with ⟨fuel, enough, read⟩
  rw [levelParser_binary depth low high, read]
  cases fuel with
  | zero => cases enough
  | succ fuel =>
      unfold furtherOperators
      simp only [follow.noOperator low high]

/-! ## Junctions -/

/-- A level's own separator is found, and the next operand is read behind it. -/
theorem separatorAt_symbol (junction : Junction) (depth : Nat) (more : Bytes) : Exists fun left =>
    matchAt (separatorAt junction.level) (junction.symbol ++ ' '.toUInt8 :: more) = some left ∧
      skipSpaces left = skipSpaces more ∧
        levelParser depth (junction.level + 1) left = levelParser depth (junction.level + 1) more := by
  cases junction <;> exact ⟨_, rfl, rfl, rfl⟩

theorem Junction.symbol_mem (junction : Junction) : (junction.level, junction.symbol) ∈ symbols := by
  cases junction <;> decide

theorem Junction.many_level (junction : Junction) :
    junction.level = 0 ∨ junction.level = 1 ∨ junction.level = 7 := by
  cases junction
  · exact .inr (.inr rfl)
  · exact .inr (.inl rfl)
  · exact .inl rfl

theorem separated_cons (separator text next : Bytes) (more : List Bytes) :
    separated separator (text :: next :: more) = text ++ separator ++ separated separator (next :: more) :=
  rfl

/-- What is read between separators. -/
structure ReadsOperand (level : Nat) (operand : Bytes × Expr) : Prop where
  opening : Opening operand.1
  reads : ReadsAt (level + 1) operand.1 operand.2
  there : operand.2 ≠ .null

theorem furtherOperands_printed (junction : Junction) (depth : Nat) {first : Bytes × Expr}
    {others : List (Bytes × Expr)}
    (reads : ∀ operand ∈ first :: others, ReadsOperand junction.level operand) {rest : Bytes}
    (follow : Follow junction.level rest) (fuel : Nat)
    (deep : (separated (spaced junction.symbol) ((first :: others).map Prod.fst)).length ≤ depth)
    (enough : (separated (spaced junction.symbol) ((first :: others).map Prod.fst)).length < fuel)
    {left : Bytes}
    (start : levelParser depth (junction.level + 1) left = levelParser depth (junction.level + 1)
      (separated (spaced junction.symbol) ((first :: others).map Prod.fst) ++ rest)) :
    furtherOperands (levelParser depth (junction.level + 1)) (separatorAt junction.level) fuel left =
      some ((first :: others).map Prod.snd, skipSpaces rest) := by
  induction others generalizing first fuel left with
  | nil =>
      have known := reads first List.mem_cons_self
      have read : levelParser depth (junction.level + 1) left = some (first.2, skipSpaces rest) :=
        start.trans (known.reads depth rest deep (follow.loosen (Nat.le_succ _)))
      cases fuel with
      | zero => cases enough
      | succ fuel =>
          unfold furtherOperands
          simp only [read, Option.bind_eq_bind, Option.bind_some, skipSpaces_idem, known.there,
            if_false, follow.noSeparator junction.many_level]
          rfl
  | cons second others inductionHypothesis =>
      have known := reads first List.mem_cons_self
      rw [List.map_cons, List.map_cons, separated_cons] at deep enough start
      generalize behind : separated (spaced junction.symbol)
        (second.1 :: others.map Prod.fst) = text at deep enough start
      rw [List.length_append, List.length_append] at deep enough
      rw [List.append_assoc, List.append_assoc] at start
      have read : levelParser depth (junction.level + 1) left =
          some (first.2, junction.symbol ++ ' '.toUInt8 :: (text ++ rest)) := by
        rw [start, known.reads depth _ (by omega)
          (.operator _ junction.symbol_mem (Nat.lt_succ_self _) _), symbol_begins junction.symbol_mem]
      have still : skipSpaces (junction.symbol ++ ' '.toUInt8 :: (text ++ rest)) =
          junction.symbol ++ ' '.toUInt8 :: (text ++ rest) := by
        rw [← symbol_begins junction.symbol_mem, skipSpaces_idem]
      have positive : 0 < (spaced junction.symbol).length := Nat.succ_pos _
      rcases separatorAt_symbol junction depth (text ++ rest) with ⟨next, found, -, same⟩
      cases fuel with
      | zero => cases enough
      | succ fuel =>
          have later : furtherOperands (levelParser depth (junction.level + 1))
              (separatorAt junction.level) fuel next =
                some ((second :: others).map Prod.snd, skipSpaces rest) := by
            apply inductionHypothesis (fun operand member => reads operand (List.mem_cons_of_mem _ member))
            · rw [List.map_cons, behind]
              omega
            · rw [List.map_cons, behind]
              omega
            · rw [List.map_cons, behind]
              exact same
          unfold furtherOperands
          simp only [read, Option.bind_eq_bind, Option.bind_some, still, known.there, if_false, found,
            later]
          rfl

/-- Two or more operands make one node of a junction. -/
theorem ReadsAt.many (junction : Junction) {first second : Bytes × Expr}
    {others : List (Bytes × Expr)}
    (reads : ∀ operand ∈ first :: second :: others, ReadsOperand junction.level operand) :
    ReadsAt junction.level
      (separated (spaced junction.symbol) ((first :: second :: others).map Prod.fst))
      (.node { type := junction.type }
        (.chained ((first :: second :: others).map Prod.snd)) .null) := by
  intro depth rest deep follow
  have known := reads first List.mem_cons_self
  rw [List.map_cons, List.map_cons, separated_cons] at deep ⊢
  generalize behind : separated (spaced junction.symbol)
    (second.1 :: others.map Prod.fst) = text at deep ⊢
  rw [List.length_append, List.length_append] at deep
  have opened : Opening text := by
    have begins := (reads second (List.mem_cons_of_mem _ List.mem_cons_self)).opening
    rw [← behind]
    cases others with
    | nil => exact begins
    | cons third others =>
        rw [List.map_cons, separated_cons, List.append_assoc]
        exact begins.append _
  have read : levelParser depth (junction.level + 1)
      (first.1 ++ (spaced junction.symbol ++ (text ++ rest))) =
        some (first.2, junction.symbol ++ ' '.toUInt8 :: (text ++ rest)) := by
    rw [known.reads depth _ (by omega)
      (.operator _ junction.symbol_mem (Nat.lt_succ_self _) _), symbol_begins junction.symbol_mem]
  have still : skipSpaces (junction.symbol ++ ' '.toUInt8 :: (text ++ rest)) =
      junction.symbol ++ ' '.toUInt8 :: (text ++ rest) := by
    rw [← symbol_begins junction.symbol_mem, skipSpaces_idem]
  rcases separatorAt_symbol junction depth (text ++ rest) with ⟨next, found, same, -⟩
  have later : ∀ fuel, text.length < fuel →
      furtherOperands (levelParser depth (junction.level + 1)) (separatorAt junction.level) fuel
        (text ++ rest) = some ((second :: others).map Prod.snd, skipSpaces rest) := by
    intro fuel enough
    apply furtherOperands_printed junction depth
      (fun operand member => reads operand (List.mem_cons_of_mem _ member)) follow fuel
    · rw [List.map_cons, behind]
      omega
    · rw [List.map_cons, behind]
      exact enough
    · rw [List.map_cons, behind]
  have longer : text.length < next.length + 1 := by
    have shorter : (skipSpaces next).length ≤ next.length := (List.dropWhile_sublist _).length_le
    rw [same, opened.skip, List.length_append] at shorter
    omega
  have linked : Expr.link ((second :: others).map Prod.snd) =
      some (.chained ((second :: others).map Prod.snd)) := by
    apply Expr.link_eq_chained
    intro expr member
    rcases List.mem_map.mp member with ⟨operand, inside, rfl⟩
    exact (reads operand (List.mem_cons_of_mem _ inside)).there
  rw [List.append_assoc, List.append_assoc, levelParser_many depth junction known.opening]
  unfold manyOperands
  simp only [read, Option.bind_eq_bind, Option.bind_some, still, found, same, opened.skip,
    later _ longer, linked, Expr.setNext_of_ne_null known.there]
  rfl

end TurboXSL
