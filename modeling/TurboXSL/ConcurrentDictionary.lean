import TurboXSL.Library.InsertOnce
import TurboXSL.PathSyntax
import TurboXSL.Templates

namespace TurboXSL

open Library

/-!
# The tables of compiled expressions and of addresses

`concurrent_dictionary.c` in front of `ck_ht`, which is taken for a correct map
on the bytes that it is shown.  It is not shown the whole key: the length goes
through a `uint16_t`, so that a key is the same as every other with these first
bytes and a length that differs by a multiple of 65536.
-/

section Dictionary

variable {Value : Type} (ck : InsertOnce Bytes Value) (null : Value)

/-- `concurrent_dictionary_find` -/
def concurrentDictionaryFind (dictionary : ck.Table) (key : Bytes) : Value :=
  (ck.get dictionary (dictionaryKey key)).getD null

/-- `concurrent_dictionary_add` -/
def concurrentDictionaryAdd (dictionary : ck.Table) (key : Bytes) (value : Value) :
    Bool × ck.Table :=
  ck.put dictionary (dictionaryKey key) value

inductive DictionaryCall (Value : Type) where
  | add (key : Bytes) (value : Value)
  | find (key : Bytes)

/-- The table that a call leaves. -/
def DictionaryCall.perform (dictionary : ck.Table) : DictionaryCall Value → ck.Table
  | .add key value => (concurrentDictionaryAdd ck dictionary key value).2
  | .find _ => dictionary

def dictionaryAfter (calls : List (DictionaryCall Value)) : ck.Table :=
  calls.foldl (DictionaryCall.perform ck) ck.empty

/-- The keys that have been added, with their values. -/
def added (calls : List (DictionaryCall Value)) : List (Bytes × Value) :=
  calls.filterMap fun
    | .add key value => some (key, value)
    | .find _ => none

/-- The value of the first add with an equal key. -/
def firstAdded (calls : List (DictionaryCall Value)) (key : Bytes) : Value :=
  (((added calls).find? (·.1 = key)).map Prod.snd).getD null

/-- The first add that the table cannot tell from one of this key. -/
def takenFor (calls : List (DictionaryCall Value)) (key : Bytes) : Option (Bytes × Value) :=
  (added calls).find? fun entry => dictionaryKey entry.1 = dictionaryKey key

variable {ck}

theorem dictionaryAfter_eq (calls : List (DictionaryCall Value)) :
    dictionaryAfter ck calls =
      ck.putAll ck.empty ((added calls).map fun entry => (dictionaryKey entry.1, entry.2)) := by
  suffices from_ : ∀ dictionary, calls.foldl (DictionaryCall.perform ck) dictionary =
      ck.putAll dictionary ((added calls).map fun entry => (dictionaryKey entry.1, entry.2)) from
    from_ ck.empty
  induction calls with
  | nil => exact fun _ => rfl
  | cons call calls inductionHypothesis =>
      intro dictionary
      cases call with
      | add key value =>
          exact inductionHypothesis (concurrentDictionaryAdd ck dictionary key value).2
      | find key => exact inductionHypothesis dictionary

theorem find_after (calls : List (DictionaryCall Value)) (key : Bytes) :
    concurrentDictionaryFind ck null (dictionaryAfter ck calls) key =
      ((takenFor calls key).map Prod.snd).getD null := by
  unfold concurrentDictionaryFind takenFor
  rw [dictionaryAfter_eq, ck.get_putAll_empty, List.find?_map, Option.map_map]
  rfl

theorem takenFor_eq_none {calls : List (DictionaryCall Value)} {key : Bytes}
    (untaken : takenFor calls key = none) : firstAdded null calls key = null := by
  have absent : (added calls).find? (·.1 = key) = none := by
    rw [List.find?_eq_none]
    intro entry member same
    have other := List.find?_eq_none.mp untaken entry member
    exact other (decide_eq_true (congrArg dictionaryKey (of_decide_eq_true same)))
  unfold firstAdded
  rw [absent]
  rfl

/-- An add of the key itself is also the first of its key. -/
theorem takenFor_self {calls : List (DictionaryCall Value)} {key : Bytes} {value : Value}
    (taken : takenFor calls key = some (key, value)) : firstAdded null calls key = value := by
  rcases List.find?_eq_some_iff_append.mp taken with ⟨_, before, after, whole, earlier⟩
  have found : (added calls).find? (·.1 = key) = some (key, value) := by
    refine List.find?_eq_some_iff_append.mpr ⟨decide_eq_true rfl, before, after, whole, ?_⟩
    intro entry member
    have other := earlier entry member
    simp only [Bool.not_eq_true', decide_eq_false_iff_not] at other ⊢
    exact fun same => other (congrArg dictionaryKey same)
  unfold firstAdded
  rw [found]
  rfl

/-- The dictionary answers for the key exactly if the add that is taken for one
of the key is one, or came with the same value. -/
theorem find_right_iff (calls : List (DictionaryCall Value)) (key : Bytes) :
    concurrentDictionaryFind ck null (dictionaryAfter ck calls) key = firstAdded null calls key ↔
      ∀ entry, takenFor calls key = some entry →
        entry.1 = key ∨ entry.2 = firstAdded null calls key := by
  rw [find_after]
  cases taken : takenFor calls key with
  | none =>
      rw [takenFor_eq_none null taken]
      exact ⟨fun _ _ found => (nomatch found), fun _ => rfl⟩
  | some entry =>
      refine ⟨fun right found same => ?_, fun known => ?_⟩
      · exact .inr (Option.some.inj same ▸ right)
      rcases known entry rfl with same | same
      · exact (takenFor_self null (same ▸ taken : takenFor calls key = some (key, entry.2))).symm
      · exact same

end Dictionary

/-! ## Compiled expressions -/

/-- `xpath_find_expr` by the calls of the dictionary. -/
theorem xpathFindExpr_calls (expressions : List (Bytes × Expr)) (expr : Bytes) :
    xpathFindExpr expressions expr =
      if concurrentDictionaryFind (association Bytes Expr) .null expressions expr ≠ .null then
        some (concurrentDictionaryFind (association Bytes Expr) .null expressions expr, expressions)
      else (xpathCompile expr).map fun compiled =>
        (compiled, (concurrentDictionaryAdd (association Bytes Expr) expressions expr compiled).2) := by
  have found : concurrentDictionaryFind (association Bytes Expr) .null expressions expr =
      (expressions.lookup (dictionaryKey expr)).getD .null := rfl
  rw [found]
  unfold xpathFindExpr
  by_cases held : (expressions.lookup (dictionaryKey expr)).getD .null ≠ .null
  · exact (if_pos held).trans (if_pos held).symm
  · refine (if_neg held).trans (Eq.trans ?_ (if_neg held).symm)
    cases xpathCompile expr with
    | none => rfl
    | some compiled =>
        by_cases present : (expressions.lookup (dictionaryKey expr)).isSome
        · simp [concurrentDictionaryAdd, association, present]
        · simp [concurrentDictionaryAdd, association, present]

section Search

variable {expressions later : List (Bytes × Expr)} {expr : Bytes} {found : Expr}

/-- A search finds the entry of the key, or compiles the text. -/
theorem xpathFindExpr_found (searched : xpathFindExpr expressions expr = some (found, later)) :
    (expressions.lookup (dictionaryKey expr) = some found ∧ found ≠ .null) ∨
      ((expressions.lookup (dictionaryKey expr)).getD .null = .null ∧
        xpathCompile expr = some found) := by
  rw [xpathFindExpr_calls] at searched
  have find : concurrentDictionaryFind (association Bytes Expr) .null expressions expr =
      (expressions.lookup (dictionaryKey expr)).getD .null := rfl
  rw [find] at searched
  by_cases held : (expressions.lookup (dictionaryKey expr)).getD .null ≠ .null
  · rw [if_pos held, Option.some.injEq, Prod.mk.injEq] at searched
    refine .inl ⟨?_, searched.1 ▸ held⟩
    cases entry : expressions.lookup (dictionaryKey expr) with
    | none =>
        rw [entry] at held
        exact absurd rfl held
    | some known =>
        rw [entry] at searched
        exact congrArg some searched.1
  · rw [if_neg held] at searched
    rcases Option.map_eq_some_iff.mp searched with ⟨compiled, compiles, same⟩
    exact .inr ⟨not_not.mp held, (Prod.mk.inj same).1 ▸ compiles⟩

/-- A search adds an entry for its key, if there is none. -/
theorem xpathFindExpr_lookup (searched : xpathFindExpr expressions expr = some (found, later))
    (key : Bytes) : later.lookup key = (expressions.lookup key).or
      (if dictionaryKey expr = key then xpathCompile expr else none) := by
  rw [xpathFindExpr_calls] at searched
  by_cases held : concurrentDictionaryFind (association Bytes Expr) .null expressions expr ≠ .null
  · rw [if_pos held, Option.some.injEq, Prod.mk.injEq] at searched
    rw [← searched.2]
    by_cases same : dictionaryKey expr = key
    · cases entry : expressions.lookup key with
      | none =>
          have missing : concurrentDictionaryFind (association Bytes Expr) .null expressions expr =
              (expressions.lookup (dictionaryKey expr)).getD .null := rfl
          rw [missing, same, entry] at held
          exact absurd rfl held
      | some known => rfl
    · rw [if_neg same, Option.or_none]
  · rw [if_neg held] at searched
    rcases Option.map_eq_some_iff.mp searched with ⟨compiled, compiles, same⟩
    rw [← (Prod.mk.inj same).2, compiles]
    exact (association Bytes Expr).get_put expressions (dictionaryKey expr) key compiled

theorem xpathFindExpr_isSome (searched : xpathFindExpr expressions expr = some (found, later)) :
    (later.lookup (dictionaryKey expr)).isSome := by
  rw [xpathFindExpr_lookup searched, if_pos rfl]
  rcases xpathFindExpr_found searched with ⟨entry, _⟩ | ⟨_, compiles⟩
  · rw [entry]
    rfl
  · rw [compiles]
    cases expressions.lookup (dictionaryKey expr) <;> rfl

end Search

/-- The table after `xpath_find_expr` has been called for these texts in turn. -/
def expressionsAfter (texts : List Bytes) : Option (List (Bytes × Expr)) :=
  texts.foldlM (fun expressions text => (xpathFindExpr expressions text).map Prod.snd) []

/-- The first text that the table cannot tell from this one. -/
def textTakenFor (texts : List Bytes) (text : Bytes) : Option Bytes :=
  texts.find? fun other => dictionaryKey other = dictionaryKey text

section Run

variable {texts : List Bytes} {first expressions : List (Bytes × Expr)}

theorem lookup_after (run : texts.foldlM (fun expressions text =>
      (xpathFindExpr expressions text).map Prod.snd) first = some expressions) (key : Bytes) :
    expressions.lookup key = (first.lookup key).or
      ((texts.find? fun text => dictionaryKey text = key).bind xpathCompile) := by
  induction texts generalizing first with
  | nil =>
      rw [← Option.some.inj run]
      exact (Option.or_none).symm
  | cons text texts inductionHypothesis =>
      rw [List.foldlM_cons, Option.bind_eq_bind, Option.bind_eq_some_iff] at run
      rcases run with ⟨next, searched, rest⟩
      rcases Option.map_eq_some_iff.mp searched with ⟨⟨found, _⟩, search, rfl⟩
      rw [inductionHypothesis rest, xpathFindExpr_lookup search, List.find?_cons]
      by_cases same : dictionaryKey text = key
      · have present := xpathFindExpr_isSome search
        rw [xpathFindExpr_lookup search, same, if_pos rfl] at present
        rcases Option.isSome_iff_exists.mp present with ⟨known, entry⟩
        rw [if_pos same, decide_eq_true same, entry, Option.some_or]
        exact entry.symm
      · rw [if_neg same, Option.or_none, decide_eq_false same]

/-- The text that a key is taken for was compiled. -/
theorem lookup_after_isSome (run : texts.foldlM (fun expressions text =>
      (xpathFindExpr expressions text).map Prod.snd) first = some expressions) :
    ∀ text ∈ texts, (expressions.lookup (dictionaryKey text)).isSome := by
  induction texts generalizing first with
  | nil => exact fun _ member => nomatch member
  | cons text texts inductionHypothesis =>
      rw [List.foldlM_cons, Option.bind_eq_bind, Option.bind_eq_some_iff] at run
      rcases run with ⟨next, searched, rest⟩
      intro other member
      rcases List.mem_cons.mp member with rfl | later
      · rcases Option.map_eq_some_iff.mp searched with ⟨⟨found, _⟩, search, rfl⟩
        rcases Option.isSome_iff_exists.mp (xpathFindExpr_isSome search) with ⟨known, entry⟩
        rw [lookup_after rest, entry]
        rfl
      · exact inductionHypothesis rest other later

end Run

/-- A search gives the tree of its text exactly if the text that is taken for
this one is this one, has no tree or has the same tree. -/
theorem compiled_right_iff {texts : List Bytes} {text : Bytes}
    {expressions later : List (Bytes × Expr)} {found : Expr}
    (run : expressionsAfter texts = some expressions)
    (searched : xpathFindExpr expressions text = some (found, later)) :
    xpathCompile text = some found ↔ ∀ other, textTakenFor texts text = some other →
      other = text ∨ xpathCompile other = some .null ∨
        xpathCompile other = xpathCompile text := by
  have entry : expressions.lookup (dictionaryKey text) =
      (textTakenFor texts text).bind xpathCompile := lookup_after run (dictionaryKey text)
  rcases xpathFindExpr_found searched with ⟨known, present⟩ | ⟨absent, compiles⟩
  · rw [known] at entry
    cases taken : textTakenFor texts text with
    | none =>
        rw [taken] at entry
        exact nomatch entry
    | some other =>
        have tree : xpathCompile other = some found := by
          rw [taken] at entry
          exact entry.symm
        constructor
        · intro right third same
          rw [← Option.some.inj same, tree, right]
          exact .inr (.inr rfl)
        · intro known
          rcases known other rfl with rfl | empty | same
          · exact tree
          · exact absurd (Option.some.inj (tree.symm.trans empty)) present
          · exact same.symm.trans tree
  · refine ⟨fun _ other taken => .inr (.inl ?_), fun _ => compiles⟩
    have member := List.mem_of_find?_eq_some taken
    have known := List.find?_some taken
    have same : dictionaryKey other = dictionaryKey text := of_decide_eq_true known
    have compiled := lookup_after_isSome run other member
    rw [same] at compiled
    rcases Option.isSome_iff_exists.mp compiled with ⟨known, looked⟩
    rw [looked] at absent entry
    rw [taken] at entry
    exact entry.symm.trans (congrArg some absent)

/-- The tables answer for the keys that are their own. -/
theorem caches_right_iff {Value : Type} (ck : InsertOnce.{0, 0, 0} Bytes Value) (null : Value)
    (calls : List (DictionaryCall Value)) (key : Bytes) (texts : List Bytes) (text : Bytes)
    (expressions later : List (Bytes × Expr)) (found : Expr)
    (run : expressionsAfter texts = some expressions)
    (searched : xpathFindExpr expressions text = some (found, later)) :
    (concurrentDictionaryFind ck null (dictionaryAfter ck calls) key = firstAdded null calls key ↔
        ∀ entry, takenFor calls key = some entry →
          entry.1 = key ∨ entry.2 = firstAdded null calls key) ∧
      (xpathCompile text = some found ↔ ∀ other, textTakenFor texts text = some other →
        other = text ∨ xpathCompile other = some .null ∨
          xpathCompile other = xpathCompile text) := by
  constructor
  · exact find_right_iff null calls key
  · exact compiled_right_iff run searched

/-- An empty dictionary, and the searches for `a` and `b`, and for `a` again. -/
theorem caches_right_iff_again :
    Exists fun expressions => Exists fun later => Exists fun found =>
      expressionsAfter [lit "a", lit "b"] = some expressions ∧
      xpathFindExpr expressions (lit "a") = some (found, later) ∧
      (xpathCompile (lit "a") = some found ↔
        ∀ other, textTakenFor [lit "a", lit "b"] (lit "a") = some other →
          other = lit "a" ∨ xpathCompile other = some .null ∨
            xpathCompile other = xpathCompile (lit "a")) := by
  have run : Exists fun expressions => expressionsAfter [lit "a", lit "b"] = some expressions ∧
      Exists fun result => xpathFindExpr expressions (lit "a") = some result :=
    ⟨_, rfl, _, rfl⟩
  rcases run with ⟨expressions, run, ⟨found, later⟩, searched⟩
  refine ⟨expressions, later, found, run, searched, ?_⟩
  exact (caches_right_iff (association Bytes Nat) 0 [] [] _ _ expressions later found run searched).2

/-! ## Keys of 65536 bytes -/

/-- A name that is this letter all along. -/
def longName (c : UInt8) : Bytes := List.replicate (2 ^ 16) c

theorem longName_key (c : UInt8) : dictionaryKey (longName c) = [] := by
  unfold dictionaryKey longName
  rw [List.length_replicate, Nat.mod_self, List.take_zero]

theorem byteAt_longName (c : UInt8) : byteAt (longName c) = c := by
  have begins : ∀ n, 0 < n → byteAt (List.replicate n c) = c := by
    intro n positive
    cases n with
    | zero => cases positive
    | succ n => rfl
  exact begins (2 ^ 16) (Nat.two_pow_pos 16)

theorem longName_isName {c : UInt8} (letter : 'a'.toUInt8 ≤ c ∧ c ≤ 'z'.toUInt8)
    (known : xIsNamechar c) : IsName (longName c) where
  begins := by
    rw [byteAt_longName, decide_eq_true letter.1, decide_eq_true letter.2]
    simp
  chars := fun other member => (List.eq_of_mem_replicate member) ▸ known
  noAxis := by
    intro inside
    have member : ':'.toUInt8 ∈ longName c := inside.subset (by decide)
    rw [← List.eq_of_mem_replicate member] at letter
    exact absurd letter (by decide)

/-- Two names of 65536 letters: the table gives one what was stored for the other. -/
theorem long_names_share_an_entry :
    concurrentDictionaryFind (association Bytes Nat) 0
        (dictionaryAfter _ [.add (longName 'a'.toUInt8) 1]) (longName 'b'.toUInt8) = 1 ∧
      firstAdded 0 [.add (longName 'a'.toUInt8) 1] (longName 'b'.toUInt8) = 0 ∧
      Exists fun expressions =>
        expressionsAfter [longName 'a'.toUInt8] = some expressions ∧
        xpathFindExpr expressions (longName 'b'.toUInt8) =
          some ((Step.named (longName 'a'.toUInt8)).first false, expressions) ∧
        xpathCompile (longName 'b'.toUInt8) =
          some ((Step.named (longName 'b'.toUInt8)).first false) ∧
        longName 'a'.toUInt8 ≠ longName 'b'.toUInt8 := by
  have different : longName 'a'.toUInt8 ≠ longName 'b'.toUInt8 := by
    intro same
    have bytes := congrArg byteAt same
    rw [byteAt_longName, byteAt_longName] at bytes
    exact absurd bytes (by decide)
  have compiles (c : UInt8) (name : IsName (longName c)) :
      xpathCompile (longName c) = some ((Step.named (longName c)).first false) :=
    (Path.first (.named (longName c)) name false).compile
  have a := compiles _ (longName_isName (c := 'a'.toUInt8) (by decide) (by decide))
  have b := compiles _ (longName_isName (c := 'b'.toUInt8) (by decide) (by decide))
  refine ⟨?_, ?_, [([], (Step.named (longName 'a'.toUInt8)).first false)], ?_, ?_, b, different⟩
  · have taken : takenFor [.add (longName 'a'.toUInt8) 1] (longName 'b'.toUInt8) =
        some (longName 'a'.toUInt8, 1) := by
      apply List.find?_cons_of_pos
      exact decide_eq_true ((longName_key _).trans (longName_key _).symm)
    rw [find_after, taken]
    rfl
  · have absent : (added [.add (longName 'a'.toUInt8) 1]).find? (·.1 = longName 'b'.toUInt8) =
        none := by
      change List.find? _ [(longName 'a'.toUInt8, 1)] = none
      rw [List.find?_cons, decide_eq_false different]
      rfl
    unfold firstAdded
    rw [absent]
    rfl
  · simp only [expressionsAfter, List.foldlM_cons, xpathFindExpr, longName_key, a]
    rfl
  · simp only [xpathFindExpr, longName_key]
    rfl

end TurboXSL
