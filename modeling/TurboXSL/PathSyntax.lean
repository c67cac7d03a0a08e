import TurboXSL.XPath
import TurboXSL.ParseSafety

namespace TurboXSL

/-!
# Location paths and what they are compiled to

`Path text tree` is the grammar of location paths, with steps of every kind,
`//`, predicates, and a leading `/`, together with the tree of every
production.  The theorems at the end say that `xpath_compile` builds this
tree: the first step finds its context below it, every later step is put on
top of the path before it, and the second slash of `//` is read twice.
-/

/-- What ends a step: the byte here neither prolongs a name nor makes it a
call, and is no white space. -/
structure Boundary (rest : Bytes) : Prop where
  name : xIsNamechar (byteAt rest) = false
  space : xIsWs (byteAt rest) = false
  bracket : byteAt rest ≠ '('.toUInt8

/-- The name of an element or attribute. -/
structure IsName (name : Bytes) : Prop where
  begins : ('A'.toUInt8 ≤ byteAt name && byteAt name ≤ 'Z'.toUInt8) ||
    ('a'.toUInt8 ≤ byteAt name && byteAt name ≤ 'z'.toUInt8) || byteAt name = '_'.toUInt8
  chars : ∀ c ∈ name, xIsNamechar c = true
  noAxis : ¬ lit "::" <:+: name

/-- The steps of a location path. -/
inductive Step where
  | named (name : Bytes)
  | all
  | self
  | parent
  | axis (axis : Bytes × ExprType) (name : Bytes)
  | axisAll (axis : Bytes × ExprType)
  | attribute_ (name : Bytes)
  | attributeAll
  | text
  | node

namespace Step

def spelling : Step → Bytes
  | .named n => n
  | .all => lit "*"
  | .self => lit "."
  | .parent => lit ".."
  | .axis a n => a.1 ++ n
  | .axisAll a => a.1 ++ lit "*"
  | .attribute_ n => lit "@" ++ n
  | .attributeAll => lit "@*"
  | .text => lit "text()"
  | .node => lit "node()"

/-- The node that a step is compiled to. -/
def head : Step → ExprNode
  | .named n => { type := .select, name := some n, kind := some (.named n) }
  | .all => { type := .all }
  | .self => { type := .self }
  | .parent => { type := .parent }
  | .axis a n => { type := a.2, name := some n, kind := some (.named n) }
  | .axisAll a => { type := a.2 }
  | .attribute_ n => { type := .attr, name := some n }
  | .attributeAll => { type := .attrAll }
  | .text => { type := .call, name := some (lit "text") }
  | .node => { type := .call, name := some (lit "node") }

def Valid : Step → Prop
  | .named n | .attribute_ n => IsName n
  | .axis a n => a ∈ axes ∧ IsName n
  | .axisAll a => a ∈ axes
  | _ => True

/-- The step on top of what comes before it. -/
def attach (step : Step) (before : Expr) : Expr := .node step.head before .null

/-- Does the first step of a path get a node for the place it starts at? -/
def anchors (step : Step) : Bool := step.head.type = .select || step.head.type = .descendant

/-- The tree of a path that is only this step, behind a slash or not. -/
def first (step : Step) (rooted : Bool) : Expr :=
  if step.anchors then step.attach (.leaf { type := if rooted then .root else .context })
  else .leaf step.head

end Step

/-- `//`, as the step it is compiled to. -/
def descendantStep (before : Expr) : Expr := .node { type := .descendant } before .null

def filterStep (before predicate : Expr) : Option Expr :=
  (before.setNext predicate).map fun operands => .node { type := .filter } operands .null

/-- Inside brackets the text is read up to the closing one. -/
def ReadsInBrackets (text : Bytes) (tree : Expr) : Prop :=
  ∀ depth rest, text.length < depth →
    doOrExpr depth (text ++ ']'.toUInt8 :: rest) = some (tree, ']'.toUInt8 :: rest)

def slash : Bytes := lit "/"

/-- Location paths and their trees. -/
inductive Path : Bytes → Expr → Prop where
  | first (step : Step) (valid : step.Valid) (rooted : Bool) :
      Path ((if rooted then slash else []) ++ step.spelling) (step.first rooted)
  | firstDeep (step : Step) (valid : step.Valid) (notAll : step.spelling ≠ lit "*") :
      Path (slash ++ slash ++ step.spelling)
        (step.attach (descendantStep (.leaf { type := .root })))
  | firstDeepAll : Path (lit "//*") (descendantStep (.leaf { type := .root }))
  | step {text : Bytes} {tree : Expr} (path : Path text tree) (step : Step) (valid : step.Valid) :
      Path (text ++ slash ++ step.spelling) (step.attach tree)
  | deep {text : Bytes} {tree : Expr} (path : Path text tree) (step : Step) (valid : step.Valid)
      (notAll : step.spelling ≠ lit "*") :
      Path (text ++ slash ++ slash ++ step.spelling) (step.attach (descendantStep tree))
  | deepAll {text : Bytes} {tree : Expr} (path : Path text tree) :
      Path (text ++ lit "//*") (descendantStep tree)
  | filter {text : Bytes} {tree : Expr} (path : Path text tree) {inner : Bytes} {predicate : Expr}
      (reads : ReadsInBrackets inner predicate) {filtered : Expr}
      (built : filterStep tree predicate = some filtered) :
      Path (text ++ '['.toUInt8 :: inner ++ [']'.toUInt8]) filtered

/-! ## Bytes -/

theorem skipSpaces_of {p : Bytes} (here : xIsWs (byteAt p) = false) : skipSpaces p = p := by
  cases p with
  | nil => rfl
  | cons c p =>
      unfold skipSpaces
      rw [List.dropWhile_cons, if_neg]
      exact fun white => Bool.false_ne_true (here.symm.trans white)

theorem Boundary.nil : Boundary [] := ⟨by decide, by decide, by decide⟩

theorem Boundary.of_byte {c : UInt8} (rest : Bytes)
    (mark : c = '/'.toUInt8 ∨ c = '['.toUInt8 ∨ c = ']'.toUInt8 ∨ c = '|'.toUInt8) :
    Boundary (c :: rest) := by
  have here : xIsNamechar c = false ∧ xIsWs c = false ∧ c ≠ '('.toUInt8 := by
    rcases mark with same | same | same | same <;>
    · rw [same]
      decide
  exact ⟨here.1, here.2.1, here.2.2⟩

theorem IsName.ne_nil {name : Bytes} (named : IsName name) : name ≠ [] := by
  rintro rfl
  exact absurd named.begins (by decide)

/-- The byte a name begins with. -/
theorem IsName.head {name : Bytes} (named : IsName name) (rest : Bytes) :
    byteAt (name ++ rest) = byteAt name ∧ xIsNamechar (byteAt name) = true ∧
      isDigit (byteAt name) = false ∧ byteAt name ≠ '-'.toUInt8 ∧ byteAt name ≠ '.'.toUInt8 := by
  have begins := named.begins
  cases name with
  | nil => exact absurd rfl named.ne_nil
  | cons c name =>
      have here : ∀ c : UInt8, (('A'.toUInt8 ≤ c && c ≤ 'Z'.toUInt8) ||
          ('a'.toUInt8 ≤ c && c ≤ 'z'.toUInt8) || c = '_'.toUInt8) = true →
          isDigit c = false ∧ c ≠ '-'.toUInt8 ∧ c ≠ '.'.toUInt8 := by
        intro c letter
        simp only [isDigit, Bool.or_eq_true, Bool.and_eq_true, Bool.and_eq_false_iff,
          decide_eq_true_eq, decide_eq_false_iff_not, UInt8.le_iff_toNat_le, ← UInt8.toNat_inj,
          ne_eq] at letter ⊢
        simp only [show 'A'.toUInt8.toNat = 65 from rfl, show 'Z'.toUInt8.toNat = 90 from rfl,
          show 'a'.toUInt8.toNat = 97 from rfl, show 'z'.toUInt8.toNat = 122 from rfl,
          show '_'.toUInt8.toNat = 95 from rfl, show '0'.toUInt8.toNat = 48 from rfl,
          show '9'.toUInt8.toNat = 57 from rfl, show '-'.toUInt8.toNat = 45 from rfl,
          show '.'.toUInt8.toNat = 46 from rfl] at letter ⊢
        omega
      exact ⟨rfl, named.chars c List.mem_cons_self, here c begins⟩

/-- A run of bytes of one kind in front of a byte of another. -/
theorem span_append {keep : UInt8 → Bool} {text rest : Bytes} (all : ∀ c ∈ text, keep c = true)
    (stop : rest = [] ∨ keep (byteAt rest) = false) :
    (text ++ rest).takeWhile keep = text ∧ (text ++ rest).dropWhile keep = rest := by
  have ended : rest.takeWhile keep = [] ∧ rest.dropWhile keep = rest := by
    cases rest with
    | nil => exact ⟨rfl, rfl⟩
    | cons c rest =>
        have here : keep c = false := stop.resolve_left (List.cons_ne_nil c rest)
        rw [List.takeWhile_cons, List.dropWhile_cons, here]
        exact ⟨rfl, rfl⟩
  rw [List.takeWhile_append_of_pos all, List.dropWhile_append_of_pos all, ended.1, ended.2,
    List.append_nil]
  exact ⟨rfl, rfl⟩

/-- A name is read up to a byte that cannot belong to it. -/
theorem nameAt_append {name rest : Bytes} (named : IsName name)
    (stop : xIsNamechar (byteAt rest) = false) : nameAt (name ++ rest) = some (name, rest) := by
  cases name with
  | nil => exact absurd rfl named.ne_nil
  | cons c name =>
      have run := span_append (fun b member => named.chars b (List.mem_cons_of_mem c member))
        (.inr stop)
      rw [List.cons_append]
      unfold nameAt
      simp only [run.1, run.2]

theorem matchAt_append (str rest : Bytes) : matchAt str (str ++ rest) = some rest := by
  induction str with
  | nil => rfl
  | cons want str inductionHypothesis =>
      unfold matchAt
      rw [List.cons_append, if_neg]
      · exact inductionHypothesis
      · exact fun different => different.1 rfl

theorem matchAt_eq_none_of_byte {want : UInt8} {str p : Bytes} (plain : want ≠ ' '.toUInt8)
    (different : byteAt p ≠ want) : matchAt (want :: str) p = none := by
  unfold matchAt
  rw [if_pos]
  exact ⟨different, fun blank => plain blank.1⟩

/-! ## Steps -/

theorem matchAt_eq_none {str p : Bytes} (plain : ' '.toUInt8 ∉ str) (other : ¬ str <+: p)
    (nonzero : 0 ∉ str) : matchAt str p = none := by
  cases found : matchAt str p with
  | none => rfl
  | some rest => exact absurd ⟨rest, (Parse.matchAt_eq_some plain nonzero found).symm⟩ other

theorem axis_spelling {axis : Bytes × ExprType} (member : axis ∈ axes) :
    (' '.toUInt8 ∉ axis.1 ∧ 0 ∉ axis.1) ∧ lit "::" <:+ axis.1 ∧
      ∀ c ∈ axis.1, xIsNamechar c = true := by
  simp only [axes, List.mem_cons, List.not_mem_nil, or_false] at member
  rcases member with rfl | rfl | rfl | rfl | rfl | rfl | rfl | rfl | rfl | rfl | rfl | rfl <;>
  · refine ⟨by decide, ?_, forall_bytes (by decide)⟩
    exact (List.isSuffixOf_iff_suffix).mp (by decide)

/-- The axes are spelled with two colons at the end, which no name has. -/
theorem axisAt_name {name rest : Bytes} (named : IsName name)
    (stop : xIsNamechar (byteAt rest) = false) :
    axisAt (name ++ rest) = none := by
  unfold axisAt
  rw [List.findSome?_eq_none_iff]
  intro axis member
  have spelled := axis_spelling member
  rw [Option.map_eq_none_iff]
  refine matchAt_eq_none spelled.1.1 ?_ spelled.1.2
  intro within
  apply named.noAxis
  rcases List.prefix_or_prefix_of_prefix within (List.prefix_append name rest) with
    inside | ⟨more, same⟩
  · exact spelled.2.1.isInfix.trans inside.isInfix
  · cases more with
    | nil =>
        rw [List.append_nil] at same
        exact same ▸ spelled.2.1.isInfix
    | cons c more =>
        have wrong : xIsNamechar c = true := spelled.2.2 c (by rw [← same]; simp)
        have here : byteAt rest = c := by
          rcases within with ⟨behind, whole⟩
          rw [← same, List.append_assoc] at whole
          rw [← List.append_cancel_left whole]
          rfl
        exact absurd (here ▸ stop) (by rw [wrong]; decide)

theorem axisAt_axis {axis : Bytes × ExprType} (member : axis ∈ axes) (rest : Bytes) :
    axisAt (axis.1 ++ rest) = some (axis.2, rest) := by
  simp only [axes, List.mem_cons, List.not_mem_nil, or_false] at member
  rcases member with rfl | rfl | rfl | rfl | rfl | rfl | rfl | rfl | rfl | rfl | rfl | rfl <;> rfl

/-- The first byte of an axis. -/
theorem axis_head {axis : Bytes × ExprType} (member : axis ∈ axes) :
    axis.1 ≠ [] ∧ xIsWs (byteAt axis.1) = false ∧ byteAt axis.1 ≠ '*'.toUInt8 ∧
      byteAt axis.1 ≠ '.'.toUInt8 ∧ byteAt axis.1 ≠ '/'.toUInt8 ∧ byteAt axis.1 ≠ '@'.toUInt8 ∧
      byteAt axis.1 ≠ '\''.toUInt8 ∧ byteAt axis.1 ≠ '('.toUInt8 ∧ byteAt axis.1 ≠ '$'.toUInt8 ∧
      xIsSelchar (byteAt axis.1) = true ∧ isDigit (byteAt axis.1) = false ∧
      byteAt axis.1 ≠ '-'.toUInt8 ∧ byteAt axis.1 ≠ 'n'.toUInt8 := by
  revert axis
  decide

theorem byteAt_append {front : Bytes} (nonempty : front ≠ []) (rest : Bytes) :
    byteAt (front ++ rest) = byteAt front := by
  cases front with
  | nil => exact absurd rfl nonempty
  | cons c front => rfl

/-- What a byte that begins a name is not. -/
theorem IsName.not_mark {name : Bytes} (named : IsName name) {c : UInt8}
    (mark : xIsNamechar c = false) : byteAt name ≠ c := by
  intro same
  exact absurd (named.head []).2.1 (by rw [same, mark]; decide)

theorem IsName.not_white {name : Bytes} (named : IsName name) : xIsWs (byteAt name) = false := by
  have known := (named.head []).2.1
  cases white : xIsWs (byteAt name) with
  | false => rfl
  | true =>
      unfold xIsWs at white
      simp only [Bool.or_eq_true, decide_eq_true_eq] at white
      rcases white with ((same | same) | same) | same <;>
      · rw [same] at known
        exact absurd known (by decide)

section Steps

variable (doOrExpr : Parser)

/-- What a name makes, with the step begun before it. -/
def nameHead (result : Option ExprType) (name : Bytes) : ExprNode :=
  match result with
  | none => { type := .select, name := some name, kind := some (.named name) }
  | some type => { type := type, name := some name }

theorem nameTest_name (result : Option ExprType) {name : Bytes} (named : IsName name) {rest : Bytes}
    (ends : Boundary rest) :
    nameTest doOrExpr result (name ++ rest) = some (.leaf (nameHead result name), rest) := by
  have still : skipSpaces rest = rest := skipSpaces_of ends.space
  unfold nameTest
  simp only [nameAt_append named ends.name, Option.bind_eq_bind, Option.bind_some, still, ends.bracket,
    if_false]
  cases result <;> rfl

/-- A step is read by `do_select_expr` up to its end. -/
theorem doSelectExpr_step {step : Step} (valid : step.Valid) {rest : Bytes} (ends : Boundary rest) :
    doSelectExpr doOrExpr (step.spelling ++ rest) = some (.leaf step.head, rest) := by
  have still : skipSpaces rest = rest := skipSpaces_of ends.space
  have ofName : ∀ {name : Bytes} (result : Option ExprType), IsName name →
      nameTest doOrExpr result (name ++ rest) = some (.leaf (nameHead result name), rest) :=
    fun result named => nameTest_name doOrExpr result named ends
  cases step with
  | named name =>
      have named : IsName name := valid
      have here := (named.head rest).1
      unfold doSelectExpr
      simp only [Step.spelling, skipSpaces_of (here ▸ named.not_white), here,
        named.not_mark (show xIsNamechar '*'.toUInt8 = false by decide), (named.head []).2.2.2.2,
        named.not_mark (show xIsNamechar '/'.toUInt8 = false by decide),
        named.not_mark (show xIsNamechar '@'.toUInt8 = false by decide), if_false,
        axisAt_name named ends.name]
      exact ofName none named
  | axis a name =>
      have member : a ∈ axes := valid.1
      have first := axis_head member
      have here := byteAt_append first.1 (name ++ rest)
      unfold doSelectExpr
      simp only [Step.spelling, List.append_assoc, skipSpaces_of (here ▸ first.2.1), here,
        first.2.2.1, first.2.2.2.1, first.2.2.2.2.1, first.2.2.2.2.2.1, if_false,
        axisAt_axis member]
      unfold axisTest
      simp only [(valid.2.head rest).1, valid.2.not_mark (show xIsNamechar '*'.toUInt8 = false by decide),
        if_false, nameAt_append valid.2 ends.name, Option.bind_eq_bind, Option.bind_some, ends.bracket]
      rfl
  | axisAll a =>
      have member : a ∈ axes := valid
      have first := axis_head member
      have here := byteAt_append first.1 (lit "*" ++ rest)
      unfold doSelectExpr
      simp only [Step.spelling, List.append_assoc, skipSpaces_of (here ▸ first.2.1), here,
        first.2.2.1, first.2.2.2.1, first.2.2.2.2.1, first.2.2.2.2.2.1, if_false,
        axisAt_axis member]
      rfl
  | attribute_ name =>
      have named : IsName name := valid
      have here := (named.head rest).1
      change doSelectExpr doOrExpr ('@'.toUInt8 :: (name ++ rest)) = _
      have other : byteAt (name ++ rest) ≠ '*'.toUInt8 := by
        rw [here]
        exact named.not_mark (by decide)
      have found := ofName (some .attr) named
      unfold doSelectExpr
      simp only [skipSpaces_of (show xIsWs (byteAt ('@'.toUInt8 :: (name ++ rest))) = false from by
        change xIsWs '@'.toUInt8 = false
        decide)]
      change (if byteAt (name ++ rest) = '*'.toUInt8 then _ else _) = _
      rw [if_neg other]
      exact found
  | self =>
      change doSelectExpr doOrExpr ('.'.toUInt8 :: rest) = _
      have other : byteAt rest ≠ '.'.toUInt8 := by
        intro same
        exact absurd ends.name (by rw [same]; decide)
      change (if byteAt rest = '.'.toUInt8 then _ else _) = _
      rw [if_neg other]
      rfl
  | all | parent | attributeAll => rfl
  | text | node => rfl

/-! ## Paths -/

theorem Step.spelling_ne_nil {step : Step} (valid : step.Valid) : step.spelling ≠ [] := by
  cases step with
  | named name =>
      have named : IsName name := valid
      exact named.ne_nil
  | axis a name => exact List.append_ne_nil_of_left_ne_nil (axis_head valid.1).1 name
  | axisAll a =>
      have member : a ∈ axes := valid
      exact List.append_ne_nil_of_left_ne_nil (axis_head member).1 _
  | attribute_ | all | self | parent | attributeAll | text | node => exact List.cons_ne_nil _ _

/-- The bytes a step can begin with. -/
theorem Step.begins {step : Step} (valid : step.Valid) (rest : Bytes) :
    xIsWs (byteAt (step.spelling ++ rest)) = false ∧
      byteAt (step.spelling ++ rest) ≠ '\''.toUInt8 ∧
      byteAt (step.spelling ++ rest) ≠ '('.toUInt8 ∧
      byteAt (step.spelling ++ rest) ≠ '$'.toUInt8 ∧
      byteAt (step.spelling ++ rest) ≠ '/'.toUInt8 ∧
      (byteAt (step.spelling ++ rest) ≠ '@'.toUInt8 →
        xIsSelchar (byteAt (step.spelling ++ rest)) = true) ∧
      (step.spelling ≠ lit "*" → byteAt (step.spelling ++ rest) ≠ '*'.toUInt8) := by
  rw [byteAt_append (Step.spelling_ne_nil valid)]
  cases step with
  | named name =>
      have named : IsName name := valid
      refine ⟨named.not_white, named.not_mark (by decide), named.not_mark (by decide),
        named.not_mark (by decide), named.not_mark (by decide), fun _ => ?_,
        fun _ => named.not_mark (by decide)⟩
      change xIsSelchar (byteAt name) = true
      unfold xIsSelchar
      rw [(named.head []).2.1]
      rfl
  | axis a name =>
      have first := axis_head valid.1
      rw [show (Step.axis a name).spelling = a.1 ++ name from rfl, byteAt_append first.1]
      exact ⟨first.2.1, first.2.2.2.2.2.2.1, first.2.2.2.2.2.2.2.1, first.2.2.2.2.2.2.2.2.1,
        first.2.2.2.2.1, fun _ => first.2.2.2.2.2.2.2.2.2.1, fun _ => first.2.2.1⟩
  | axisAll a =>
      have member : a ∈ axes := valid
      have first := axis_head member
      rw [show (Step.axisAll a).spelling = a.1 ++ lit "*" from rfl, byteAt_append first.1]
      exact ⟨first.2.1, first.2.2.2.2.2.2.1, first.2.2.2.2.2.2.2.1, first.2.2.2.2.2.2.2.2.1,
        first.2.2.2.2.1, fun _ => first.2.2.2.2.2.2.2.2.2.1, fun _ => first.2.2.1⟩
  | attribute_ name =>
      change xIsWs '@'.toUInt8 = false ∧ '@'.toUInt8 ≠ '\''.toUInt8 ∧ '@'.toUInt8 ≠ '('.toUInt8 ∧
        '@'.toUInt8 ≠ '$'.toUInt8 ∧ '@'.toUInt8 ≠ '/'.toUInt8 ∧
        ('@'.toUInt8 ≠ '@'.toUInt8 → _) ∧ (_ → '@'.toUInt8 ≠ '*'.toUInt8)
      exact ⟨by decide, by decide, by decide, by decide, by decide, fun wrong => (wrong rfl).elim,
        fun _ => by decide⟩
  | all | self | parent | attributeAll | text | node => decide

/-- No step begins with a number. -/
theorem Step.not_number {step : Step} (valid : step.Valid) {rest : Bytes} (ends : Boundary rest) :
    xCanNumber (step.spelling ++ rest) = false := by
  have simple : ∀ p : Bytes, byteAt p ≠ '-'.toUInt8 → byteAt p ≠ '.'.toUInt8 →
      isDigit (byteAt p) = false → xCanNumber p = false := by
    intro p minus point digit
    unfold xCanNumber
    simp only [minus, point, if_false, digit]
  have digitName : ∀ c, xIsNamechar c = false → isDigit c = false := by
    intro c other
    cases digit : isDigit c with
    | false => rfl
    | true =>
        unfold isDigit at digit
        unfold xIsNamechar at other
        rw [digit] at other
        simp at other
  cases step with
  | named name =>
      have named : IsName name := valid
      have first := named.head rest
      exact simple _ (first.1 ▸ first.2.2.2.1) (first.1 ▸ first.2.2.2.2) (first.1 ▸ first.2.2.1)
  | axis a name =>
      have first := axis_head valid.1
      have here := byteAt_append first.1 (name ++ rest)
      rw [show (Step.axis a name).spelling ++ rest = a.1 ++ (name ++ rest) from
        List.append_assoc _ _ _]
      exact simple _ (here ▸ first.2.2.2.2.2.2.2.2.2.2.2.1) (here ▸ first.2.2.2.1)
        (here ▸ first.2.2.2.2.2.2.2.2.2.2.1)
  | axisAll a =>
      have member : a ∈ axes := valid
      have first := axis_head member
      have here := byteAt_append first.1 (lit "*" ++ rest)
      rw [show (Step.axisAll a).spelling ++ rest = a.1 ++ (lit "*" ++ rest) from
        List.append_assoc _ _ _]
      exact simple _ (here ▸ first.2.2.2.2.2.2.2.2.2.2.2.1) (here ▸ first.2.2.2.1)
        (here ▸ first.2.2.2.2.2.2.2.2.2.2.1)
  | self =>
      change isDigit (byteAt rest) = false
      exact digitName _ ends.name
  | attribute_ | all | parent | attributeAll | text | node => rfl

/-- The tree of the first step, once `do_select_expr` has read it. -/
theorem setChildren_first (step : Step) (rooted : Bool) (rest : Bytes) :
    (if (Expr.leaf step.head).type? = some .select ∨ (Expr.leaf step.head).type? = some .descendant
      then ((Expr.leaf step.head).setChildren
        (.leaf { type := if rooted then .root else .context })).map (·, rest)
      else some (.leaf step.head, rest)) = some (step.first rooted, rest) := by
  unfold Step.first Step.anchors
  change (if some step.head.type = some .select ∨ some step.head.type = some .descendant
    then some _ else _) = _
  by_cases select : step.head.type = .select
  · simp only [select, true_or, if_true, decide_true, Bool.true_or]
    rfl
  · by_cases descendant : step.head.type = .descendant
    · simp only [descendant, or_true, if_true, decide_true, Bool.or_true]
      rfl
    · simp only [select, descendant, Option.some.injEq, or_self, if_false, decide_false,
        Bool.or_self, Bool.false_eq_true]

theorem doNode2Expr_first {step : Step} (valid : step.Valid) (rooted : Bool) {rest : Bytes}
    (ends : Boundary rest) :
    doNode2Expr doOrExpr ((if rooted then slash else []) ++ step.spelling ++ rest) =
      some (step.first rooted, rest) := by
  have read := doSelectExpr_step doOrExpr valid ends
  have first := Step.begins valid rest
  cases rooted with
  | true =>
      change doNode2Expr doOrExpr ('/'.toUInt8 :: (step.spelling ++ rest)) = _
      have number : xCanNumber ('/'.toUInt8 :: (step.spelling ++ rest)) = false := rfl
      have marks : xIsWs '/'.toUInt8 = false ∧ '/'.toUInt8 ≠ '\''.toUInt8 ∧
          '/'.toUInt8 ≠ '('.toUInt8 ∧ '/'.toUInt8 ≠ '$'.toUInt8 ∧ '/'.toUInt8 ≠ '@'.toUInt8 ∧
          xIsSelchar '/'.toUInt8 = true := by decide
      have here : byteAt ('/'.toUInt8 :: (step.spelling ++ rest)) = '/'.toUInt8 := rfl
      unfold doNode2Expr
      simp only [skipSpaces_of (show xIsWs (byteAt ('/'.toUInt8 :: (step.spelling ++ rest))) = false
        from marks.1), here, marks, number, if_false, if_true, Bool.false_eq_true, List.tail_cons,
        read, Option.bind_eq_bind, Option.bind_some]
      have built := setChildren_first step true rest
      simp only [Option.map_eq_bind] at built
      exact built
  | false =>
      change doNode2Expr doOrExpr (step.spelling ++ rest) = _
      unfold doNode2Expr
      simp only [skipSpaces_of first.1, first.2.1, first.2.2.1, first.2.2.2.1,
        Step.not_number valid ends, if_false, Bool.false_eq_true]
      by_cases mark : byteAt (step.spelling ++ rest) = '@'.toUInt8
      · rw [if_pos mark]
        cases step with
        | attribute_ name =>
            have named : IsName name := valid
            have other : byteAt (name ++ rest) ≠ '*'.toUInt8 := by
              rw [(named.head rest).1]
              exact named.not_mark (by decide)
            change (if byteAt (name ++ rest) = '*'.toUInt8 then _ else doVarExpr .attr (name ++ rest)) =
              _
            rw [if_neg other]
            unfold doVarExpr
            rw [nameAt_append named ends.name]
            simp only [Option.bind_eq_bind, Option.bind_some, skipSpaces_of ends.space]
            rfl
        | attributeAll => rfl
        | named name =>
            have named : IsName name := valid
            rw [show (Step.named name).spelling = name from rfl, (named.head rest).1] at mark
            exact absurd mark (named.not_mark (by decide))
        | axis a name =>
            have head := axis_head valid.1
            rw [show (Step.axis a name).spelling ++ rest = a.1 ++ (name ++ rest) from
              List.append_assoc _ _ _, byteAt_append head.1] at mark
            exact absurd mark head.2.2.2.2.2.1
        | axisAll a =>
            have member : a ∈ axes := valid
            have head := axis_head member
            rw [show (Step.axisAll a).spelling ++ rest = a.1 ++ (lit "*" ++ rest) from
              List.append_assoc _ _ _, byteAt_append head.1] at mark
            exact absurd mark head.2.2.2.2.2.1
        | all | self | parent | text | node =>
            rw [byteAt_append (Step.spelling_ne_nil valid)] at mark
            exact absurd mark (by decide)
      · rw [if_neg mark, if_pos (first.2.2.2.2.2.1 mark)]
        simp only [first.2.2.2.2.1, if_false, read,
          Option.bind_eq_bind, Option.bind_some]
        have built := setChildren_first step false rest
        simp only [Option.map_eq_bind] at built
        exact built

/-! ### The loop over the steps -/

theorem nodeSteps_step {step : Step} (valid : step.Valid) (fuel : Nat) (tree : Expr) {rest : Bytes}
    (ends : Boundary rest) :
    nodeSteps doOrExpr (fuel + 1) tree (slash ++ step.spelling ++ rest) =
      nodeSteps doOrExpr fuel (step.attach tree) rest := by
  have read := doSelectExpr_step doOrExpr valid ends
  change (doSelectExpr doOrExpr (step.spelling ++ rest) >>= fun found => _) = _
  rw [read]
  rfl

/-- The second slash stays where it is, for the next step. -/
theorem nodeSteps_deep (fuel : Nat) (tree : Expr) {more : Bytes}
    (notAll : byteAt more ≠ '*'.toUInt8) :
    nodeSteps doOrExpr (fuel + 1) tree (slash ++ slash ++ more) =
      nodeSteps doOrExpr fuel (descendantStep tree) (slash ++ more) := by
  have read : doSelectExpr doOrExpr (slash ++ more) =
      some (.leaf { type := .descendant }, slash ++ more) := by
    change some (Expr.leaf { type := .descendant },
      if byteAt more = '*'.toUInt8 then more.tail else slash ++ more) = _
    rw [if_neg notAll]
  change (doSelectExpr doOrExpr (slash ++ more) >>= fun found => _) = _
  rw [read]
  rfl

theorem nodeSteps_deepAll (fuel : Nat) (tree : Expr) (rest : Bytes) :
    nodeSteps doOrExpr (fuel + 1) tree (lit "//*" ++ rest) =
      nodeSteps doOrExpr fuel (descendantStep tree) rest := rfl

theorem nodeSteps_end (fuel : Nat) (tree : Expr) {rest : Bytes} (ends : Boundary rest)
    (noStep : byteAt rest ≠ '/'.toUInt8) (noFilter : byteAt rest ≠ '['.toUInt8) :
    nodeSteps doOrExpr (fuel + 1) tree rest = some (tree, rest) := by
  unfold nodeSteps
  simp only [skipSpaces_of ends.space, noStep, noFilter, if_false]

end Steps

theorem nodeSteps_filter {inner : Bytes} {predicate : Expr}
    (reads : ReadsInBrackets inner predicate) {tree filtered : Expr}
    (built : filterStep tree predicate = some filtered) {depth : Nat}
    (deep : inner.length < depth) (fuel : Nat) (rest : Bytes) :
    nodeSteps (doOrExpr depth) (fuel + 1) tree ('['.toUInt8 :: inner ++ ']'.toUInt8 :: rest) =
      nodeSteps (doOrExpr depth) fuel filtered rest := by
  have read := reads depth rest deep
  rcases Option.map_eq_some_iff.mp built with ⟨operands, joined, rfl⟩
  change (doOrExpr depth (inner ++ ']'.toUInt8 :: rest) >>= fun found => _) = _
  rw [read]
  simp only [Option.bind_eq_bind, Option.bind_some, joined]
  rfl

/-- The parser of paths has read `text` and goes on with `tree`. -/
structure Reads (text : Bytes) (tree : Expr) : Prop where
  parses : ∀ depth rest, text.length ≤ depth → Boundary rest → Exists fun fuel =>
    rest.length < fuel ∧
      doNodeExpr (doOrExpr depth) (text ++ rest) = nodeSteps (doOrExpr depth) fuel tree rest
  begins : ∀ rest, Boundary rest → xIsWs (byteAt (text ++ rest)) = false
  noCall : ∀ rest, Boundary rest → ∀ behind, matchAt (lit "not") (text ++ rest) = some behind →
    byteAt behind ≠ '('.toUInt8 ∧ xIsWs (byteAt behind) = false

/-- One more turn of the loop. -/
theorem Reads.extend {text : Bytes} {tree : Expr} (reads : Reads text tree) {more : Bytes}
    {grown : Expr} (starts : ∀ rest, Boundary (more ++ rest))
    (turn : ∀ depth rest fuel, more.length ≤ depth → Boundary rest →
      (more ++ rest).length < fuel → Exists fun left => rest.length < left ∧
        nodeSteps (doOrExpr depth) fuel tree (more ++ rest) =
          nodeSteps (doOrExpr depth) left grown rest) :
    Reads (text ++ more) grown where
  parses := by
    intro depth rest deep ends
    rw [List.length_append] at deep
    rcases reads.parses depth (more ++ rest) (Nat.le_of_add_right_le deep) (starts rest) with
      ⟨fuel, enough, read⟩
    rcases turn depth rest fuel (Nat.le_of_add_left_le deep) ends enough with ⟨left, still, turned⟩
    refine ⟨left, still, ?_⟩
    rw [List.append_assoc, read, turned]
  begins := by
    intro rest ends
    rw [List.append_assoc]
    exact reads.begins _ (starts rest)
  noCall := by
    intro rest ends behind found
    rw [List.append_assoc] at found
    exact reads.noCall _ (starts rest) behind found

theorem byteAt_of_cons {c : UInt8} {p : Bytes} (here : byteAt p = c) (nonzero : c ≠ 0) :
    p = c :: p.tail := by
  cases p with
  | nil => exact absurd here.symm nonzero
  | cons b p =>
      have same : b = c := here
      rw [same, List.tail_cons]

/-- A name is no call of `not`, even where it begins like it. -/
theorem IsName.noCall {name rest behind : Bytes} (named : IsName name) (ends : Boundary rest)
    (found : matchAt (lit "not") (name ++ rest) = some behind) :
    byteAt behind ≠ '('.toUInt8 ∧ xIsWs (byteAt behind) = false := by
  have whole := Parse.matchAt_eq_some (by decide) (by decide) found
  have ofChar : ∀ {c}, xIsNamechar c = true → c ≠ '('.toUInt8 ∧ xIsWs c = false := by
    intro c char
    constructor
    · rintro rfl
      exact absurd char (by decide)
    · cases white : xIsWs c with
      | false => rfl
      | true =>
          unfold xIsWs at white
          simp only [Bool.or_eq_true, decide_eq_true_eq] at white
          rcases white with ((same | same) | same) | same <;>
          · rw [same] at char
            exact absurd char (by decide)
  rcases List.append_eq_append_iff.mp whole with ⟨more, front, tail⟩ | ⟨more, front, tail⟩
  · cases more with
    | nil =>
        rw [List.nil_append] at tail
        exact tail ▸ ⟨ends.bracket, ends.space⟩
    | cons c more =>
        have member : c ∈ lit "not" := by
          rw [front]
          simp
        have char : xIsNamechar c = true := by
          revert member
          have known : ∀ c ∈ lit "not", xIsNamechar c = true := forall_bytes (by decide)
          exact known c
        rw [tail] at ends
        exact absurd ends.name (by rw [show byteAt (c :: more ++ behind) = c from rfl, char]; decide)
  · cases more with
    | nil =>
        rw [List.nil_append] at tail
        exact tail ▸ ⟨ends.bracket, ends.space⟩
    | cons c more =>
        have char := named.chars c (by rw [front]; simp)
        rw [tail]
        exact ofChar char

theorem matchAt_not_of_byte {p : Bytes} (different : byteAt p ≠ 'n'.toUInt8) :
    matchAt (lit "not") p = none :=
  matchAt_eq_none_of_byte (by decide) different

theorem Reads.first {step : Step} (valid : step.Valid) (rooted : Bool) :
    Reads ((if rooted then slash else []) ++ step.spelling) (step.first rooted) where
  parses := by
    intro depth rest _ ends
    refine ⟨rest.length + 1, Nat.lt_succ_self _, ?_⟩
    unfold doNodeExpr
    rw [doNode2Expr_first _ valid rooted ends]
    rfl
  begins := by
    intro rest _
    cases rooted with
    | true => exact (by decide : xIsWs '/'.toUInt8 = false)
    | false => exact (Step.begins valid rest).1
  noCall := by
    intro rest ends behind found
    cases rooted with
    | true =>
        have mark : byteAt (slash ++ step.spelling ++ rest) ≠ 'n'.toUInt8 :=
          (by decide : '/'.toUInt8 ≠ 'n'.toUInt8)
        exact absurd (found.symm.trans (matchAt_not_of_byte mark)) nofun
    | false =>
        change matchAt (lit "not") (step.spelling ++ rest) = some behind at found
        have nonempty := Step.spelling_ne_nil valid
        have other : byteAt step.spelling ≠ 'n'.toUInt8 → byteAt behind ≠ '('.toUInt8 ∧
            xIsWs (byteAt behind) = false := by
          intro different
          rw [matchAt_not_of_byte (by rw [byteAt_append nonempty]; exact different)] at found
          cases found
        cases step with
        | named name =>
            have named : IsName name := valid
            exact named.noCall ends found
        | axis a name =>
            refine other ?_
            have head := axis_head valid.1
            rw [show (Step.axis a name).spelling = a.1 ++ name from rfl, byteAt_append head.1]
            exact head.2.2.2.2.2.2.2.2.2.2.2.2
        | axisAll a =>
            have member : a ∈ axes := valid
            refine other ?_
            have head := axis_head member
            rw [show (Step.axisAll a).spelling = a.1 ++ lit "*" from rfl, byteAt_append head.1]
            exact head.2.2.2.2.2.2.2.2.2.2.2.2
        | attribute_ name =>
            refine other ?_
            exact (by decide : '@'.toUInt8 ≠ 'n'.toUInt8)
        | node => cases found
        | all | self | parent | attributeAll | text => exact other (by decide)

theorem Reads.step {text : Bytes} {tree : Expr} (reads : Reads text tree) {step : Step}
    (valid : step.Valid) : Reads (text ++ slash ++ step.spelling) (step.attach tree) := by
  rw [List.append_assoc]
  refine reads.extend (fun rest => .of_byte _ (.inl rfl)) ?_
  intro depth rest fuel _ ends enough
  cases fuel with
  | zero => cases enough
  | succ fuel =>
      refine ⟨fuel, ?_, nodeSteps_step _ valid fuel tree ends⟩
      have longer : (slash ++ step.spelling ++ rest).length = 1 + step.spelling.length + rest.length := by
        rw [List.length_append, List.length_append]
        rfl
      omega

theorem Reads.deep {text : Bytes} {tree : Expr} (reads : Reads text tree) {step : Step}
    (valid : step.Valid) (notAll : step.spelling ≠ lit "*") :
    Reads (text ++ slash ++ slash ++ step.spelling) (step.attach (descendantStep tree)) := by
  rw [List.append_assoc, List.append_assoc]
  refine reads.extend (fun rest => .of_byte _ (.inl rfl)) ?_
  intro depth rest fuel _ ends enough
  have longer : (slash ++ (slash ++ step.spelling) ++ rest).length =
      2 + step.spelling.length + rest.length := by
    rw [List.length_append, List.length_append, List.length_append]
    change 1 + (1 + step.spelling.length) + rest.length = _
    omega
  match fuel with
  | 0 => cases enough
  | 1 => omega
  | fuel + 2 =>
      refine ⟨fuel, by omega, ?_⟩
      have first := nodeSteps_deep (doOrExpr depth) (fuel + 1) tree
        ((Step.begins valid rest).2.2.2.2.2.2 notAll)
      have second := nodeSteps_step (doOrExpr depth) valid fuel (descendantStep tree) ends
      rw [List.append_assoc] at second
      rw [List.append_assoc, List.append_assoc, ← second, ← first, List.append_assoc]

theorem Reads.deepAll {text : Bytes} {tree : Expr} (reads : Reads text tree) :
    Reads (text ++ lit "//*") (descendantStep tree) := by
  refine reads.extend (fun rest => .of_byte _ (.inl rfl)) ?_
  intro depth rest fuel _ _ enough
  cases fuel with
  | zero => cases enough
  | succ fuel =>
      refine ⟨fuel, ?_, nodeSteps_deepAll _ fuel tree rest⟩
      have longer : (lit "//*" ++ rest).length = 3 + rest.length := List.length_append
      omega

theorem Reads.filter {text : Bytes} {tree : Expr} (reads : Reads text tree) {inner : Bytes}
    {predicate : Expr} (inBrackets : ReadsInBrackets inner predicate) {filtered : Expr}
    (built : filterStep tree predicate = some filtered) :
    Reads (text ++ '['.toUInt8 :: inner ++ [']'.toUInt8]) filtered := by
  rw [List.append_assoc]
  refine reads.extend (fun rest => .of_byte _ (.inr (.inl rfl))) ?_
  intro depth rest fuel deep _ enough
  have longer : ('['.toUInt8 :: inner ++ [']'.toUInt8]).length = inner.length + 2 := by
    simp
  cases fuel with
  | zero => cases enough
  | succ fuel =>
      rw [List.length_append] at enough
      refine ⟨fuel, by omega, ?_⟩
      have inside : inner.length < depth := by omega
      have turn := nodeSteps_filter inBrackets built inside fuel rest
      rw [List.append_assoc]
      exact turn

/-- A path from the root that begins with two slashes. -/
theorem Reads.firstDeep {step : Step} (valid : step.Valid) (notAll : step.spelling ≠ lit "*") :
    Reads (slash ++ slash ++ step.spelling)
      (step.attach (descendantStep (.leaf { type := .root }))) where
  parses := by
    intro depth rest _ ends
    have other := (Step.begins valid rest).2.2.2.2.2.2 notAll
    have begun : doNode2Expr (doOrExpr depth) (slash ++ slash ++ step.spelling ++ rest) =
        some (descendantStep (.leaf { type := .root }), slash ++ step.spelling ++ rest) := by
      have read : doSelectExpr (doOrExpr depth) (slash ++ (step.spelling ++ rest)) =
          some (.leaf { type := .descendant }, slash ++ (step.spelling ++ rest)) := by
        change some (Expr.leaf { type := .descendant }, if byteAt (step.spelling ++ rest) =
          '*'.toUInt8 then (step.spelling ++ rest).tail else slash ++ (step.spelling ++ rest)) = _
        rw [if_neg other]
      rw [List.append_assoc, List.append_assoc]
      change (doSelectExpr (doOrExpr depth) (slash ++ (step.spelling ++ rest)) >>= fun found => _) = _
      rw [read]
      rfl
    refine ⟨(slash ++ step.spelling ++ rest).length, ?_, ?_⟩
    · rw [List.length_append, List.length_append]
      change rest.length < 1 + step.spelling.length + rest.length
      omega
    · unfold doNodeExpr
      rw [begun]
      exact nodeSteps_step _ valid _ _ ends
  begins := fun _ _ => (by decide : xIsWs '/'.toUInt8 = false)
  noCall := by
    intro rest _ behind found
    have mark : byteAt (slash ++ slash ++ step.spelling ++ rest) ≠ 'n'.toUInt8 :=
      (by decide : '/'.toUInt8 ≠ 'n'.toUInt8)
    exact absurd (found.symm.trans (matchAt_not_of_byte mark)) nofun

theorem Reads.firstDeepAll : Reads (lit "//*") (descendantStep (.leaf { type := .root })) where
  parses := by
    intro depth rest _ _
    exact ⟨rest.length + 1, Nat.lt_succ_self _, rfl⟩
  begins := fun _ _ => (by decide : xIsWs '/'.toUInt8 = false)
  noCall := by
    intro rest _ behind found
    have mark : byteAt (lit "//*" ++ rest) ≠ 'n'.toUInt8 := (by decide : '/'.toUInt8 ≠ 'n'.toUInt8)
    exact absurd (found.symm.trans (matchAt_not_of_byte mark)) nofun

/-- Every location path is read as its tree. -/
theorem Path.reads {text : Bytes} {tree : Expr} (path : Path text tree) : Reads text tree := by
  induction path with
  | first step valid rooted => exact .first valid rooted
  | firstDeep step valid notAll => exact .firstDeep valid notAll
  | firstDeepAll => exact .firstDeepAll
  | step _ step valid inductionHypothesis => exact inductionHypothesis.step valid
  | deep _ step valid notAll inductionHypothesis => exact inductionHypothesis.deep valid notAll
  | deepAll _ inductionHypothesis => exact inductionHypothesis.deepAll
  | filter _ inBrackets built inductionHypothesis =>
      exact inductionHypothesis.filter inBrackets built

/-! ## The levels above -/

/-- What ends a path: nothing more, a bracket, or another path of a union. -/
def Ends (rest : Bytes) : Prop :=
  rest = [] ∨ byteAt rest = ']'.toUInt8 ∨ byteAt rest = '|'.toUInt8

theorem Ends.boundary {rest : Bytes} (ends : Ends rest) : Boundary rest := by
  rcases ends with rfl | here | here
  · exact .nil
  · rw [byteAt_of_cons here (by decide)]
    exact .of_byte _ (.inr (.inr (.inl rfl)))
  · rw [byteAt_of_cons here (by decide)]
    exact .of_byte _ (.inr (.inr (.inr rfl)))

theorem Ends.byte_ne {rest : Bytes} (ends : Ends rest) {c : UInt8} (notNul : c ≠ 0)
    (notBracket : c ≠ ']'.toUInt8) (notBar : c ≠ '|'.toUInt8) : byteAt rest ≠ c := by
  rcases ends with rfl | here | here
  · exact Ne.symm notNul
  · rw [here]
    exact Ne.symm notBracket
  · rw [here]
    exact Ne.symm notBar

theorem Reads.doNodeExpr {text : Bytes} {tree : Expr} (reads : Reads text tree) {depth : Nat}
    (deep : text.length ≤ depth) {rest : Bytes} (ends : Ends rest) :
    doNodeExpr (doOrExpr depth) (text ++ rest) = some (tree, rest) := by
  rcases reads.parses depth rest deep ends.boundary with ⟨fuel, enough, read⟩
  cases fuel with
  | zero => cases enough
  | succ fuel =>
      rw [read]
      exact nodeSteps_end _ fuel tree ends.boundary (ends.byte_ne (by decide) (by decide) (by decide))
        (ends.byte_ne (by decide) (by decide) (by decide))

theorem manyOperands_single {sub : Parser} {separator p rest : Bytes} {type : ExprType}
    {tree : Expr} (read : sub p = some (tree, rest)) (space : skipSpaces rest = rest)
    (last : matchAt separator rest = none) :
    manyOperands sub separator type p = some (tree, rest) := by
  unfold manyOperands
  rw [read]
  simp only [Option.bind_eq_bind, Option.bind_some, space, last]

theorem leftOperators_single {sub : Parser} {operator : Bytes → Option (ExprType × Bytes)}
    {p rest : Bytes} {tree : Expr} (read : sub p = some (tree, rest))
    (space : skipSpaces rest = rest) (last : operator rest = none) :
    leftOperators sub operator p = some (tree, rest) := by
  unfold leftOperators
  rw [read]
  simp only [Option.bind_eq_bind, Option.bind_some]
  unfold furtherOperators
  simp only [space, last]

/-- The end of a whole expression. -/
def Closes (rest : Bytes) : Prop := rest = [] ∨ byteAt rest = ']'.toUInt8

theorem Closes.ends {rest : Bytes} (closes : Closes rest) : Ends rest :=
  closes.imp_right .inl

theorem Closes.byte_ne {rest : Bytes} (closes : Closes rest) {c : UInt8} (notNul : c ≠ 0)
    (notBracket : c ≠ ']'.toUInt8) : byteAt rest ≠ c := by
  rcases closes with rfl | here
  · exact Ne.symm notNul
  · rw [here]
    exact Ne.symm notBracket

/-- An expression without operators is what its union is. -/
theorem doOrExpr_of_union {p rest : Bytes} {tree : Expr} {depth : Nat}
    (space : xIsWs (byteAt p) = false)
    (noCall : ∀ behind, matchAt (lit "not") p = some behind →
      byteAt behind ≠ '('.toUInt8 ∧ xIsWs (byteAt behind) = false)
    (read : doUnionExpr (doOrExpr depth) p = some (tree, rest)) (closes : Closes rest) :
    doOrExpr (depth + 1) p = some (tree, rest) := by
  have still := skipSpaces_of closes.ends.boundary.space
  have here := skipSpaces_of space
  have noMatch : ∀ {want : UInt8} {str : Bytes}, want ≠ ' '.toUInt8 → want ≠ 0 →
      want ≠ ']'.toUInt8 → matchAt (want :: str) rest = none := fun plain nonzero notBracket =>
    matchAt_eq_none_of_byte plain (closes.byte_ne nonzero notBracket)
  have notLevel : doNotExpr (doOrExpr depth) (p.length + 1) p = some (tree, rest) := by
    unfold doNotExpr
    simp only [here]
    cases found : matchAt (lit "not") p with
    | none => exact read
    | some behind =>
        have plain := noCall behind found
        simp only [plain.1, plain.2, Bool.false_eq_true, or_self, if_false]
        exact read
  have mulLevel : doMulExpr (doOrExpr depth) p = some (tree, rest) := by
    refine leftOperators_single notLevel still ?_
    unfold mulOperator
    rw [if_neg (closes.byte_ne (by decide) (by decide)),
      show lit "div " = 'd'.toUInt8 :: lit "iv " from rfl,
      show lit "mod " = 'm'.toUInt8 :: lit "od " from rfl,
      noMatch (by decide) (by decide) (by decide), noMatch (by decide) (by decide) (by decide)]
    rfl
  have addLevel : doAddExpr (doOrExpr depth) p = some (tree, rest) := by
    refine leftOperators_single mulLevel still ?_
    unfold addOperator
    rw [if_neg (closes.byte_ne (by decide) (by decide)),
      if_neg (closes.byte_ne (by decide) (by decide))]
  have relLevel : doRelExpr (doOrExpr depth) p = some (tree, rest) := by
    refine leftOperators_single addLevel still ?_
    unfold relOperator
    rw [show lit "<=" = '<'.toUInt8 :: lit "=" from rfl,
      show lit ">=" = '>'.toUInt8 :: lit "=" from rfl, show lit "<" = ['<'.toUInt8] from rfl,
      show lit ">" = ['>'.toUInt8] from rfl, noMatch (by decide) (by decide) (by decide),
      noMatch (by decide) (by decide) (by decide), noMatch (by decide) (by decide) (by decide),
      noMatch (by decide) (by decide) (by decide)]
    rfl
  have eqLevel : doEqExpr (doOrExpr depth) p = some (tree, rest) := by
    refine leftOperators_single relLevel still ?_
    unfold eqOperator
    rw [if_neg (closes.byte_ne (by decide) (by decide)), if_neg]
    exact fun different => closes.byte_ne (by decide) (by decide) different.1
  have andLevel : doAndExpr (doOrExpr depth) p = some (tree, rest) :=
    manyOperands_single eqLevel still (noMatch (by decide) (by decide) (by decide))
  unfold doOrExpr
  rw [here]
  exact manyOperands_single andLevel still (noMatch (by decide) (by decide) (by decide))

theorem Reads.doOrExpr {text : Bytes} {tree : Expr} (reads : Reads text tree) {depth : Nat}
    (deep : text.length < depth) {rest : Bytes} (closes : Closes rest) :
    doOrExpr depth (text ++ rest) = some (tree, rest) := by
  cases depth with
  | zero => cases deep
  | succ depth =>
      have space := reads.begins rest closes.ends.boundary
      refine doOrExpr_of_union space (reads.noCall rest closes.ends.boundary) ?_ closes
      unfold doUnionExpr
      rw [skipSpaces_of space]
      refine manyOperands_single (reads.doNodeExpr (Nat.le_of_lt_succ deep) closes.ends)
        (skipSpaces_of closes.ends.boundary.space) ?_
      exact matchAt_eq_none_of_byte (by decide) (closes.byte_ne (by decide) (by decide))

/-- `xpath_compile` gives a location path its tree. -/
theorem Path.compile {text : Bytes} {tree : Expr} (path : Path text tree) :
    xpathCompile text = some tree := by
  have read := path.reads.doOrExpr (Nat.lt_succ_self text.length) (.inl rfl : Closes [])
  rw [List.append_nil] at read
  unfold xpathCompile
  rw [read]
  rfl

/-- A path may stand in the brackets of a predicate. -/
theorem Path.readsInBrackets {text : Bytes} {tree : Expr} (path : Path text tree) :
    ReadsInBrackets text tree := fun _ _ deep => path.reads.doOrExpr deep (.inr rfl)

end TurboXSL
