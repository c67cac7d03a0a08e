import Mathlib.Data.List.Induction
import Mathlib.Data.List.Nodup
import TurboXSL.Parse

namespace TurboXSL

/-!
# Localized messages

`ltr:__l` and `ltr:__ln` look a message up and put values into it: the pairs
are taken one after the other, and each pass replaces a name in braces in the
text that the pass before it left.  Values without braces in a message without
nested braces are put in as if all at once.
-/

namespace Localizing

/-! ## The code -/

/-- What the catalogue of the language has for a message, NULL where it has nothing. -/
structure LocalizationEntry where
  get : CString → Option CString
  getPlural : CString → Int → Option CString

/-- An argument as `rval2string` and `(int)rval2number` give it. -/
structure Argument where
  string : Option CString
  number : Int := 0

/-- The largest value of `int`. -/
def intMax : Nat := 2 ^ 31 - 1

/-- The format `{%s}`. -/
def formatName (name : Bytes) : Bytes := '{'.toUInt8 :: (name ++ ['}'.toUInt8])

/-- The inner loop, from `last` on. -/
def replaceLoop (buffer value : Bytes) : Nat → Bytes → Option Bytes
  | 0, _ => none
  | fuel + 1, last =>
      match strstr buffer last with
      | none => some last
      | some s => do
          let behind ← replaceLoop buffer value fuel (last.drop (s + buffer.length))
          some (last.take s ++ value ++ behind)

/-- What `xmls_add_str` adds: nothing for NULL. -/
def addedStr (value : Option CString) : Bytes := (value.map CString.bytes).getD []

/-- The outer loop; `none` where a missing argument is followed, or `snprintf`
gets no name or counts beyond an `int`. -/
def pairsLoop (string : Bytes) : List Argument → Option Bytes
  | [] => some string
  | [_] => none
  | name :: value :: p => do
      let name ← name.string
      let buffer := formatName name.bytes
      if intMax < buffer.length then none
      else pairsLoop (← replaceLoop buffer (addedStr value.string) (string.length + 1) string) p

/-- The two functions that share the code: for `ltr:__ln` the mode is 1. -/
inductive Mode where
  | localization | plural
deriving DecidableEq

/-- `xf_localization_base`: the string, or NULL. -/
def xfLocalizationBase (entry : Option LocalizationEntry) (mode : Mode) :
    List Argument → Option (Option Bytes)
  | [] => some none
  | first :: p =>
      match first.string with
      | none => some none
      | some id =>
          match entry, mode with
          | none, _ => (pairsLoop id.bytes p).map some
          | some entry, .localization =>
              (pairsLoop ((entry.get id).getD id).bytes p).map some
          | some entry, .plural =>
              match p with
              | _ :: number :: p =>
                  (pairsLoop ((entry.getPlural id number.number).getD id).bytes p).map some
              | _ => none

/-! ## One pass -/

/-- Names in braces replaced from left to right, all at once; the first
bytes are passed over. -/
def filledFrom (pairs : List (Bytes × Bytes)) : Nat → Bytes → Bytes
  | _, [] => []
  | passed + 1, _ :: rest => filledFrom pairs passed rest
  | 0, c :: rest =>
      match pairs.find? fun pair => formatName pair.1 <+: c :: rest with
      | some pair => pair.2 ++ filledFrom pairs (pair.1.length + 1) rest
      | none => c :: filledFrom pairs 0 rest

/-- The message with every `{name}` replaced by its value simultaneously. -/
def filled (pairs : List (Bytes × Bytes)) (text : Bytes) : Bytes := filledFrom pairs 0 text

theorem length_formatName (name : Bytes) : (formatName name).length = name.length + 2 := by
  rw [formatName, List.length_cons, List.length_append]
  rfl

theorem filledFrom_drop (pairs : List (Bytes × Bytes)) (passed : Nat) (text : Bytes) :
    filledFrom pairs passed text = filled pairs (text.drop passed) := by
  induction text generalizing passed with
  | nil =>
      rw [List.drop_nil]
      cases passed <;> rfl
  | cons c rest inductionHypothesis =>
      cases passed with
      | zero => rfl
      | succ passed => exact inductionHypothesis passed

theorem filled_nil (pairs : List (Bytes × Bytes)) : filled pairs [] = [] := rfl

theorem filled_found {pairs : List (Bytes × Bytes)} {pair : Bytes × Bytes} {rest : Bytes}
    (found : pairs.find? (fun other => formatName other.1 <+: formatName pair.1 ++ rest) = some pair) :
    filled pairs (formatName pair.1 ++ rest) = pair.2 ++ filled pairs rest := by
  have length : (pair.1 ++ ['}'.toUInt8]).length = pair.1.length + 1 := List.length_append
  rw [formatName, List.cons_append] at found ⊢
  rw [filled, filledFrom, found]
  dsimp only
  rw [filledFrom_drop, ← length, List.drop_left]

theorem filled_skip {pairs : List (Bytes × Bytes)} {c : UInt8} {rest : Bytes}
    (absent : ∀ pair ∈ pairs, ¬ formatName pair.1 <+: c :: rest) :
    filled pairs (c :: rest) = c :: filled pairs rest := by
  have none_ : pairs.find? (fun pair => formatName pair.1 <+: c :: rest) = none := by
    apply List.find?_eq_none.mpr
    intro pair member found
    exact absent pair member (of_decide_eq_true found)
  rw [filled, filledFrom, none_]
  rfl

section Pass

variable {name value : Bytes}

/-- Where the placeholder stands first, and what is made of the text there. -/
theorem filled_strstr (name value text : Bytes) :
    match strstr (formatName name) text with
    | none => filled [(name, value)] text = text
    | some s => s + (formatName name).length ≤ text.length ∧ filled [(name, value)] text =
        text.take s ++ value ++ filled [(name, value)] (text.drop (s + (formatName name).length)) := by
  induction text with
  | nil =>
      have visible : formatName name ≠ [] := List.cons_ne_nil _ _
      rw [strstr, if_neg visible]
      rfl
  | cons c rest inductionHypothesis =>
      rw [strstr]
      by_cases here : formatName name <+: c :: rest
      · rcases here with ⟨behind, whole⟩
        rw [if_pos ⟨behind, whole⟩, ← whole]
        refine ⟨?_, ?_⟩
        · rw [Nat.zero_add, List.length_append]
          exact Nat.le_add_right _ _
        · have found : [(name, value)].find? (fun other =>
              formatName other.1 <+: formatName name ++ behind) = some (name, value) := by
            simp
          rw [Nat.zero_add, List.drop_left, List.take_zero, List.nil_append]
          exact @filled_found [(name, value)] (name, value) behind found
      · rw [if_neg here]
        have skipped : filled [(name, value)] (c :: rest) = c :: filled [(name, value)] rest := by
          refine filled_skip fun pair member => ?_
          rw [List.mem_singleton.mp member]
          exact here
        cases found : strstr (formatName name) rest with
        | none =>
            rw [found] at inductionHypothesis
            exact skipped.trans (congrArg (List.cons c) inductionHypothesis)
        | some s =>
            rw [found] at inductionHypothesis
            rcases inductionHypothesis with ⟨inside, later⟩
            refine ⟨?_, ?_⟩
            · change s + 1 + (formatName name).length ≤ rest.length + 1
              omega
            · rw [skipped, later, List.take_succ_cons, Nat.add_right_comm, List.drop_succ_cons]
              rfl

/-- The inner loop makes one pass. -/
theorem replaceLoop_eq (name value : Bytes) {fuel : Nat} {text : Bytes} (enough : text.length < fuel) :
    replaceLoop (formatName name) value fuel text = some (filled [(name, value)] text) := by
  induction fuel generalizing text with
  | zero => exact absurd enough (Nat.not_lt_zero _)
  | succ fuel inductionHypothesis =>
      have spec := filled_strstr name value text
      rw [replaceLoop]
      cases found : strstr (formatName name) text with
      | none =>
          rw [found] at spec
          exact congrArg some (Eq.symm spec)
      | some s =>
          rw [found] at spec
          rcases spec with ⟨inside, whole⟩
          have shorter : (text.drop (s + (formatName name).length)).length < fuel := by
            rw [length_formatName] at inside
            rw [List.length_drop, length_formatName]
            omega
          simp only [inductionHypothesis shorter, Option.bind_eq_bind, Option.bind_some, whole]

end Pass

/-! ## All pairs -/

/-- The arguments of a list of pairs. -/
def pairArguments (pairs : List (CString × Option CString)) : List Argument :=
  pairs.flatMap fun pair => [{ string := some pair.1 }, { string := pair.2 }]

theorem pairArguments_cons (pair : CString × Option CString)
    (pairs : List (CString × Option CString)) : pairArguments (pair :: pairs) =
      { string := some pair.1 } :: { string := pair.2 } :: pairArguments pairs := rfl

/-- A pair as bytes. -/
def pairBytes (pair : CString × Option CString) : Bytes × Bytes := (pair.1.bytes, addedStr pair.2)

/-- One pass after the other. -/
def passes (pairs : List (CString × Option CString)) (text : Bytes) : Bytes :=
  pairs.foldl (fun text pair => filled [pairBytes pair] text) text

theorem pairsLoop_eq {pairs : List (CString × Option CString)}
    (short : ∀ pair ∈ pairs, pair.1.bytes.length + 2 ≤ intMax) (string : Bytes) :
    pairsLoop string (pairArguments pairs) = some (passes pairs string) := by
  induction pairs generalizing string with
  | nil => rfl
  | cons pair pairs inductionHypothesis =>
      have here := short pair List.mem_cons_self
      have counted : ¬ intMax < (formatName pair.1.bytes).length := by
        rw [length_formatName]
        exact Nat.not_lt.mpr here
      have later := inductionHypothesis fun other member => short other (List.mem_cons_of_mem pair member)
      rw [pairArguments_cons, pairsLoop]
      simp only [Option.bind_eq_bind, Option.bind_some, if_neg counted,
        replaceLoop_eq _ _ (Nat.lt_succ_self _)]
      exact later _

/-! ## Messages without nested braces -/

/-- Neither brace occurs. -/
def Braceless (s : Bytes) : Prop := '{'.toUInt8 ∉ s ∧ '}'.toUInt8 ∉ s

instance (s : Bytes) : Decidable (Braceless s) := inferInstanceAs (Decidable (_ ∧ _))

/-- Behind a brace that opens, the next brace closes; `opened` says whether
one is open. -/
def unnested : Bool → Bytes → Bool
  | _, [] => true
  | opened, c :: rest =>
      if c = '{'.toUInt8 then !opened && unnested true rest
      else if c = '}'.toUInt8 then unnested false rest
      else unnested opened rest

/-- Text without nested braces, a group of braces at a time. -/
inductive Flat : Bytes → Prop where
  | nil : Flat []
  | char (c : UInt8) (rest : Bytes) (plain : c ≠ '{'.toUInt8) (later : Flat rest) : Flat (c :: rest)
  | group (content rest : Bytes) (inner : Braceless content) (later : Flat rest) :
      Flat (formatName content ++ rest)
  | opened (content : Bytes) (inner : Braceless content) : Flat ('{'.toUInt8 :: content)

/-- Behind a brace that opens, the text closes it or has no braces. -/
theorem unnested_opened {text : Bytes} (flat : unnested true text = true) :
    Braceless text ∨ Exists fun content => Exists fun rest =>
      text = content ++ '}'.toUInt8 :: rest ∧ Braceless content ∧ unnested false rest = true := by
  induction text with
  | nil => exact .inl ⟨List.not_mem_nil, List.not_mem_nil⟩
  | cons c text inductionHypothesis =>
      rw [unnested] at flat
      split at flat
      next opens => exact absurd flat (by simp)
      next notOpen =>
        split at flat
        next closes => exact .inr ⟨[], text, congrArg (· :: text) closes, by decide, flat⟩
        next notClose =>
          have extend : ∀ {content : Bytes}, Braceless content → Braceless (c :: content) := by
            rintro content ⟨noOpen, noClose⟩
            constructor
            · exact fun member => (List.mem_cons.mp member).elim (fun same => notOpen same.symm) noOpen
            · exact fun member => (List.mem_cons.mp member).elim (fun same => notClose same.symm) noClose
          rcases inductionHypothesis flat with braceless | ⟨content, rest, rfl, inner, later⟩
          · exact .inl (extend braceless)
          · exact .inr ⟨c :: content, rest, rfl, extend inner, later⟩

theorem Flat.of_unnested {text : Bytes} (flat : unnested false text = true) : Flat text := by
  induction size : text.length using Nat.strong_induction_on generalizing text with
  | _ size_ inductionHypothesis =>
      cases text with
      | nil => exact .nil
      | cons c text =>
          rw [List.length_cons] at size
          rw [unnested] at flat
          split at flat
          next opens =>
            subst opens
            rcases unnested_opened flat with braceless | ⟨content, rest, rfl, inner, later⟩
            · exact .opened text braceless
            · have shorter : rest.length < size_ := by
                rw [← size, List.length_append, List.length_cons]
                omega
              have group := Flat.group content rest inner (inductionHypothesis _ shorter later rfl)
              rw [formatName, List.cons_append, List.append_assoc, List.singleton_append] at group
              exact group
          next notOpen =>
            have later : unnested false text = true := by
              split at flat <;> exact flat
            exact .char c text notOpen (inductionHypothesis _ (by omega) later rfl)

/-- A name without braces stands in a group of braces only if it is the content. -/
theorem formatName_prefix_iff {name content rest : Bytes} (plain : Braceless name)
    (inner : Braceless content) : formatName name <+: formatName content ++ rest ↔ name = content := by
  constructor
  · intro found
    rw [formatName, formatName, List.cons_append, List.cons_prefix_cons, List.append_assoc,
      List.singleton_append] at found
    rcases found with ⟨-, behind, whole⟩
    rw [List.append_assoc, List.singleton_append] at whole
    have split := congrArg (List.takeWhile fun c => c ≠ '}'.toUInt8) whole
    have cut : ∀ {front : Bytes} (later : Bytes), '}'.toUInt8 ∉ front →
        (front ++ '}'.toUInt8 :: later).takeWhile (fun c => c ≠ '}'.toUInt8) = front := by
      intro front later absent
      rw [List.takeWhile_append_of_pos, List.takeWhile_cons_of_neg (by simp), List.append_nil]
      exact fun c member => decide_eq_true fun same => absent (same ▸ member)
    rwa [cut behind plain.2, cut rest inner.2] at split
  · rintro rfl
    exact List.prefix_append _ _

/-- No name stands where no brace opens. -/
theorem not_formatName_prefix {name : Bytes} {c : UInt8} {rest : Bytes} (plain : c ≠ '{'.toUInt8) :
    ¬ formatName name <+: c :: rest := by
  rw [formatName, List.cons_prefix_cons]
  exact fun both => plain both.1.symm

/-- Text in which no brace opens stays. -/
theorem filled_append {pairs : List (Bytes × Bytes)} {front : Bytes} (rest : Bytes)
    (plain : '{'.toUInt8 ∉ front) : filled pairs (front ++ rest) = front ++ filled pairs rest := by
  induction front with
  | nil => rfl
  | cons c front inductionHypothesis =>
      rw [List.mem_cons, not_or] at plain
      rw [List.cons_append, filled_skip fun _ _ => not_formatName_prefix fun same => plain.1 same.symm,
        inductionHypothesis plain.2, List.cons_append]

/-- A brace that is not closed stays, and so does what is behind it. -/
theorem filled_opened (pairs : List (Bytes × Bytes)) {content : Bytes} (inner : Braceless content) :
    filled pairs ('{'.toUInt8 :: content) = '{'.toUInt8 :: content := by
  have rest : filled pairs (content ++ []) = content ++ filled pairs [] := filled_append [] inner.1
  rw [List.append_nil, filled_nil, List.append_nil] at rest
  rw [filled_skip, rest]
  rintro pair - found
  have closed : '}'.toUInt8 ∈ '{'.toUInt8 :: content :=
    found.subset (List.mem_cons_of_mem _ (List.mem_append_right _ List.mem_cons_self))
  rcases List.mem_cons.mp closed with same | member
  · exact absurd same (by decide)
  · exact inner.2 member

/-- A group of braces becomes the value of its content, if there is one. -/
theorem filled_group {pairs : List (Bytes × Bytes)} (plain : ∀ pair ∈ pairs, Braceless pair.1)
    {content : Bytes} (rest : Bytes) (inner : Braceless content) :
    filled pairs (formatName content ++ rest) =
      (match pairs.find? fun pair => pair.1 = content with
        | some pair => pair.2
        | none => formatName content) ++ filled pairs rest := by
  have same : (pairs.find? fun pair => formatName pair.1 <+: formatName content ++ rest) =
      pairs.find? fun pair => pair.1 = content := by
    induction pairs with
    | nil => rfl
    | cons pair pairs inductionHypothesis =>
        have here : formatName pair.1 <+: formatName content ++ rest ↔ pair.1 = content :=
          formatName_prefix_iff (plain pair List.mem_cons_self) inner
        rw [List.find?_cons, List.find?_cons, decide_eq_decide.mpr here,
          inductionHypothesis fun other member => plain other (List.mem_cons_of_mem pair member)]
  cases found : pairs.find? fun pair => pair.1 = content with
  | some pair =>
      have stands := List.find?_some found
      have named : pair.1 = content := of_decide_eq_true stands
      subst named
      exact filled_found (same.trans found)
  | none =>
      rw [found] at same
      have front : '{'.toUInt8 ∉ content ++ ['}'.toUInt8] := by
        intro member
        rcases List.mem_append.mp member with inside | last
        · exact inner.1 inside
        · exact absurd (List.mem_singleton.mp last) (by decide)
      rw [formatName, List.cons_append, filled_skip, filled_append rest front, List.cons_append]
      intro pair member stands
      exact List.find?_eq_none.mp same pair member (decide_eq_true stands)

/-- Without pairs the text stays. -/
theorem filled_none (text : Bytes) : filled [] text = text := by
  induction text with
  | nil => rfl
  | cons c rest inductionHypothesis => rw [filled_skip fun pair member => absurd member List.not_mem_nil,
      inductionHypothesis]

/-- One more pair is put in behind the others as if at once with them. -/
theorem filled_filled {text : Bytes} (flat : Flat text) {pairs : List (Bytes × Bytes)}
    {pair : Bytes × Bytes} (names : ∀ other ∈ pairs ++ [pair], Braceless other.1)
    (values : ∀ other ∈ pairs, Braceless other.2) :
    filled [pair] (filled pairs text) = filled (pairs ++ [pair]) text := by
  have before : ∀ other ∈ pairs, Braceless other.1 := fun other member =>
    names other (List.mem_append_left [pair] member)
  have last : ∀ other ∈ [pair], Braceless other.1 := fun other member =>
    names other (List.mem_append_right pairs member)
  induction flat with
  | nil => rfl
  | char c rest plain later inductionHypothesis =>
      have skip : ∀ {others : List (Bytes × Bytes)} {text : Bytes},
          filled others (c :: text) = c :: filled others text :=
        filled_skip fun _ _ => not_formatName_prefix plain
      rw [skip, skip, skip, inductionHypothesis]
  | opened content inner => rw [filled_opened _ inner, filled_opened _ inner, filled_opened _ inner]
  | group content rest inner later inductionHypothesis =>
      rw [filled_group before rest inner, filled_group names rest inner, List.find?_append]
      cases found : pairs.find? fun other => other.1 = content with
      | some other =>
          have value := values other (List.mem_of_find?_eq_some found)
          rw [Option.some_or]
          dsimp only
          rw [filled_append _ value.1, inductionHypothesis]
      | none =>
          rw [Option.none_or]
          dsimp only
          rw [filled_group last _ inner, inductionHypothesis]

/-- Passes over a message without nested braces put all values in at once. -/
theorem passes_eq_filled {text : Bytes} (flat : Flat text) {pairs : List (CString × Option CString)}
    (names : ∀ pair ∈ pairs, Braceless pair.1.bytes)
    (values : ∀ pair ∈ pairs, Braceless (addedStr pair.2)) :
    passes pairs text = filled (pairs.map pairBytes) text := by
  induction pairs using List.reverseRecOn with
  | nil => exact (filled_none text).symm
  | append_singleton pairs pair inductionHypothesis =>
      have before : ∀ {other}, other ∈ pairs → other ∈ pairs ++ [pair] := List.mem_append_left [pair]
      have earlier : passes pairs text = filled (pairs.map pairBytes) text :=
        inductionHypothesis (fun other member => names other (before member))
          fun other member => values other (before member)
      have all : ∀ other ∈ pairs.map pairBytes ++ [pairBytes pair], Braceless other.1 := by
        intro other member
        rw [← List.map_singleton, ← List.map_append] at member
        rcases List.mem_map.mp member with ⟨source, listed, rfl⟩
        exact names source listed
      rw [passes, List.foldl_append, List.map_append, List.map_singleton]
      change filled [pairBytes pair] (passes pairs text) = _
      rw [earlier]
      refine filled_filled flat all fun other member => ?_
      rcases List.mem_map.mp member with ⟨source, listed, rfl⟩
      exact values source (before listed)

/-- The value of a name, where the names differ. -/
theorem find?_named {pairs : List (Bytes × Bytes)} (distinct : (pairs.map Prod.fst).Nodup)
    {content : Bytes} {pair : Bytes × Bytes} :
    (pairs.find? fun other => other.1 = content) = some pair ↔ pair ∈ pairs ∧ pair.1 = content := by
  constructor
  · intro found
    have stands := List.find?_some found
    exact ⟨List.mem_of_find?_eq_some found, of_decide_eq_true stands⟩
  · rintro ⟨member, named⟩
    cases found : pairs.find? fun other => other.1 = content with
    | none => exact absurd (decide_eq_true named) (List.find?_eq_none.mp found pair member)
    | some other =>
        have stands := List.find?_some found
        have same : other.1 = pair.1 := (of_decide_eq_true stands).trans named.symm
        rw [List.inj_on_of_nodup_map distinct (List.mem_of_find?_eq_some found) member same]

/-- The order of the pairs does not matter where the names differ. -/
theorem filled_perm {text : Bytes} (flat : Flat text) {pairs order : List (Bytes × Bytes)}
    (permuted : order.Perm pairs) (distinct : (pairs.map Prod.fst).Nodup)
    (names : ∀ pair ∈ pairs, Braceless pair.1) : filled order text = filled pairs text := by
  have namesOrder : ∀ pair ∈ order, Braceless pair.1 := fun pair member =>
    names pair (permuted.mem_iff.mp member)
  have distinctOrder : (order.map Prod.fst).Nodup := (permuted.map Prod.fst).nodup_iff.mpr distinct
  induction flat with
  | nil => rfl
  | char c rest plain later inductionHypothesis =>
      rw [filled_skip fun _ _ => not_formatName_prefix plain,
        filled_skip fun _ _ => not_formatName_prefix plain, inductionHypothesis]
  | opened content inner => rw [filled_opened _ inner, filled_opened _ inner]
  | group content rest inner later inductionHypothesis =>
      have same : (order.find? fun pair => pair.1 = content) = pairs.find? fun pair => pair.1 = content := by
        ext pair
        rw [find?_named distinctOrder, find?_named distinct, permuted.mem_iff]
      rw [filled_group namesOrder rest inner, filled_group names rest inner, same, inductionHypothesis]

/-! ## The functions -/

/-- The arguments behind the identifier that choose the message, none for
`ltr:__l`, the plural text and a number for `ltr:__ln`. -/
inductive Choice where
  | single
  | plural (text number : Argument)

namespace Choice

def mode : Choice → Mode
  | .single => .localization
  | .plural _ _ => .plural

def arguments : Choice → List Argument
  | .single => []
  | .plural text number => [text, number]

/-- The message, which is the identifier where the catalogue has none. -/
def message (entry : Option LocalizationEntry) (id : CString) : Choice → CString
  | .single => (entry.bind fun entry => entry.get id).getD id
  | .plural _ number => (entry.bind fun entry => entry.getPlural id number.number).getD id

end Choice

/-- A call with the pairs in this order, and a name without a value behind them
where there is one. -/
def call (entry : Option LocalizationEntry) (choice : Choice) (id : CString)
    (pairs : List (CString × Option CString)) (lone : Option CString) : Option (Option Bytes) :=
  xfLocalizationBase entry choice.mode
    ({ string := some id } :: (choice.arguments ++ pairArguments pairs ++
      (lone.map fun name => { string := some name }).toList))

/-- What is to hold of a call: no missing argument is followed, and complete
pairs are put in simultaneously. -/
def PutsInAtOnce (entry : Option LocalizationEntry) (choice : Choice) (id : CString)
    (pairs : List (CString × Option CString)) (lone : Option CString) : Prop :=
  (call entry choice id pairs lone).isSome = true ∧
    (lone = none → call entry choice id pairs lone =
      some (some (filled (pairs.map pairBytes) (choice.message entry id).bytes)))

/-- Pairs that do not get in each other's way: no name and no value has a brace,
and the message has none inside of others. -/
structure Plain (pairs : List (CString × Option CString)) (message : Bytes) : Prop where
  distinct : (pairs.map fun pair => pair.1.bytes).Nodup
  names : ∀ pair ∈ pairs, Braceless pair.1.bytes
  values : ∀ pair ∈ pairs, Braceless (addedStr pair.2)
  flat : unnested false message = true

theorem call_passes (entry : Option LocalizationEntry) (choice : Choice) (id : CString)
    {pairs : List (CString × Option CString)} (set : choice = .single ∨ entry.isSome = true)
    (short : ∀ pair ∈ pairs, pair.1.bytes.length + 2 ≤ intMax) :
    call entry choice id pairs none = some (some (passes pairs (choice.message entry id).bytes)) := by
  rw [call, Option.map_none, Option.toList_none, List.append_nil]
  cases choice with
  | single =>
      cases entry with
      | none => exact congrArg (Option.map some) (pairsLoop_eq short id.bytes)
      | some entry => exact congrArg (Option.map some) (pairsLoop_eq short ((entry.get id).getD id).bytes)
  | plural text number =>
      cases entry with
      | none => exact absurd set (by simp)
      | some entry =>
          exact congrArg (Option.map some)
            (pairsLoop_eq short ((entry.getPlural id number.number).getD id).bytes)

/-- The pairs are put in one after the other, each into the text that the one
before it left.  Where they do not get in each other's way, this is to put them
in at once, in whatever order they come. -/
theorem localization_passes (entry : Option LocalizationEntry) (choice : Choice) (id : CString)
    (pairs : List (CString × Option CString)) (set : choice = .single ∨ entry.isSome = true)
    (short : ∀ pair ∈ pairs, pair.1.bytes.length + 2 ≤ intMax) :
    call entry choice id pairs none =
        some (some (passes pairs (choice.message entry id).bytes)) ∧
      (Plain pairs (choice.message entry id).bytes →
        ∀ order : List (CString × Option CString), order.Perm pairs →
          call entry choice id order none =
            some (some (filled (pairs.map pairBytes) (choice.message entry id).bytes))) := by
  refine ⟨call_passes entry choice id set short, fun plain order permuted => ?_⟩
  have flat := Flat.of_unnested plain.flat
  have member : ∀ {pair}, pair ∈ order → pair ∈ pairs := permuted.mem_iff.mp
  have sequential : passes order (choice.message entry id).bytes =
      filled (order.map pairBytes) (choice.message entry id).bytes :=
    passes_eq_filled flat (fun pair listed => plain.names pair (member listed))
      fun pair listed => plain.values pair (member listed)
  have distinct : ((pairs.map pairBytes).map Prod.fst).Nodup := by
    rw [List.map_map]
    exact plain.distinct
  have reordered := filled_perm flat (permuted.map pairBytes) distinct fun pair listed => by
    rcases List.mem_map.mp listed with ⟨source, found, rfl⟩
    exact plain.names source found
  rw [call_passes entry choice id set fun pair listed => short pair (member listed), sequential,
    reordered]

/-- Behind a name without a value a missing argument is followed. -/
theorem pairsLoop_lone {pairs : List (CString × Option CString)}
    (short : ∀ pair ∈ pairs, pair.1.bytes.length + 2 ≤ intMax) (string : Bytes) (name : Argument) :
    pairsLoop string (pairArguments pairs ++ [name]) = none := by
  induction pairs generalizing string with
  | nil => rfl
  | cons pair pairs inductionHypothesis =>
      have counted : ¬ intMax < (formatName pair.1.bytes).length := by
        rw [length_formatName]
        exact Nat.not_lt.mpr (short pair List.mem_cons_self)
      have later := inductionHypothesis fun other member => short other (List.mem_cons_of_mem pair member)
      rw [pairArguments_cons, List.cons_append, List.cons_append, pairsLoop]
      simp only [Option.bind_eq_bind, Option.bind_some, if_neg counted,
        replaceLoop_eq _ _ (Nat.lt_succ_self _)]
      exact later _

/-- A German catalogue with one message. -/
def greeting : LocalizationEntry where
  get := fun id => if id.bytes = lit "hello" then some ⟨lit "Hallo {a} {b}", by decide⟩ else none
  getPlural := fun _ _ => none

theorem localization_greeting :
    Plain [(⟨lit "a", by decide⟩, some ⟨lit "x", by decide⟩),
      (⟨lit "b", by decide⟩, some ⟨lit "y", by decide⟩)] (lit "Hallo {a} {b}") ∧
    call (some greeting) .single ⟨lit "hello", by decide⟩
      [(⟨lit "b", by decide⟩, some ⟨lit "y", by decide⟩),
        (⟨lit "a", by decide⟩, some ⟨lit "x", by decide⟩)] none = some (some (lit "Hallo x y")) := by
  have plain : Plain [(⟨lit "a", by decide⟩, some ⟨lit "x", by decide⟩),
      (⟨lit "b", by decide⟩, some ⟨lit "y", by decide⟩)] (lit "Hallo {a} {b}") :=
    ⟨by decide, by decide, by decide, by decide⟩
  have short : ∀ pair ∈ [((⟨lit "a", by decide⟩, some ⟨lit "x", by decide⟩) : CString × Option CString),
      (⟨lit "b", by decide⟩, some ⟨lit "y", by decide⟩)], pair.1.bytes.length + 2 ≤ intMax := by
    decide
  refine ⟨plain, ?_⟩
  rw [(localization_passes (some greeting) .single ⟨lit "hello", by decide⟩ _ (.inl rfl) short).2 plain _
    (.swap _ _ _)]
  decide

/-- A value that holds a later name in braces is searched for it, and so the
order of the pairs matters; a name without a value is followed by nothing. -/
theorem inserted_value_is_searched :
    ¬ (∀ (entry : Option LocalizationEntry) (choice : Choice) (id : CString)
      (pairs : List (CString × Option CString)) (lone : Option CString),
      (pairs.map fun pair => pair.1.bytes).Nodup → PutsInAtOnce entry choice id pairs lone) ∧
    call none .single ⟨lit "{a}", by decide⟩ [(⟨lit "a", by decide⟩, some ⟨lit "{b}", by decide⟩),
      (⟨lit "b", by decide⟩, some ⟨lit "y", by decide⟩)] none = some (some (lit "y")) := by
  have run : call none .single ⟨lit "{a}", by decide⟩ [(⟨lit "a", by decide⟩, some ⟨lit "{b}", by decide⟩),
      (⟨lit "b", by decide⟩, some ⟨lit "y", by decide⟩)] none = some (some (lit "y")) := by decide
  refine ⟨fun always => ?_, run⟩
  have claimed := (always none .single ⟨lit "{a}", by decide⟩
    [(⟨lit "a", by decide⟩, some ⟨lit "{b}", by decide⟩),
      (⟨lit "b", by decide⟩, some ⟨lit "y", by decide⟩)] none (by decide)).2 rfl
  rw [run] at claimed
  exact absurd claimed (by decide)

end Localizing

end TurboXSL
