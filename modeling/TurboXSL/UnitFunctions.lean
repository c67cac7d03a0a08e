import Mathlib.Logic.Relation
import TurboXSL.WideStrings

namespace TurboXSL
namespace WideStrings

/-!
# Functions on units

`translate` and `substring` work on the arrays `utf2ws` makes.  The inner loop
of `translate` goes on with the value it has just replaced, and takes the
index in the pattern for one in the substitute, which may be shorter.  The
bounds of `substring` are `int`, the index they are compared with is a
`size_t`.
-/

/-- The memory of the array for a string: one element for each byte and one
more, zero where no unit was written. -/
def block (s : CString) (ws : List Int16) : List Int16 :=
  ws ++ List.replicate (s.bytes.length + 1 - ws.length) 0

/-- `utf2ws` on a string that may be missing; there is nothing to read in the array then. -/
def utf2wsBlock : Option CString → Except Undefined (List Int16)
  | none => .ok []
  | some s => (utf2ws s).map (block s)

/-- The element at an index. -/
def unitAt (ws : List Int16) (i : Nat) : Except Undefined Int16 :=
  match ws[i]? with
  | some u => .ok u
  | none => .error .overread

/-- The inner loop of `xf_translate` on what is left of `pat` at the index `j`:
the last value of `v`, and the indices read in `sub`. -/
def replaceLoop (sub : List Int16) : List Int16 → Nat → Int16 → Except Undefined (Int16 × List Nat)
  | [], _, _ => .error .overread
  | p :: pat, j, v =>
      if p = 0 then .ok (v, [])
      else if v = p then do
        let (last, read) ← replaceLoop sub pat (j + 1) (← unitAt sub j)
        .ok (last, j :: read)
      else replaceLoop sub pat (j + 1) v

/-- The outer loop on what is left of `src`: the string, and all indices read in `sub`. -/
def translateLoop (pat sub : List Int16) : List Int16 → Except Undefined (Bytes × List Nat)
  | [] => .error .overread
  | c :: src =>
      if c = 0 then .ok ([], [])
      else do
        let (v, read) ← replaceLoop sub pat 0 c
        let (xs, later) ← translateLoop pat sub src
        .ok ((if v ≠ 0 then xmlsAddUtf (asUnsigned v) else []) ++ xs, read ++ later)

/-- `xf_translate` on the strings of its arguments: the result, with the indices read in `sub`. -/
def xfTranslate : List (Option CString) → Except Undefined (Option (Bytes × List Nat))
  | some s :: pat :: sub :: _ => do
      let src ← utf2wsBlock (some s)
      some <$> translateLoop (← utf2wsBlock pat) (← utf2wsBlock sub) src
  | _ => .ok none

/-- The sum of two `int`, with what the machine gives where it is none. -/
def intSum (elsewhere : Int → Int32) (left right : Int32) : Int32 :=
  let sum := left.toInt + right.toInt
  if -2 ^ 31 ≤ sum ∧ sum < 2 ^ 31 then Int32.ofInt sum else elsewhere sum

/-- An `int` that is compared with a `size_t`. -/
def asSize (n : Int32) : Nat := (n.toInt % 2 ^ 64).toNat

/-- The loop of `xf_substr` on what is left of `src` at the index `p`. -/
def substrLoop (start behind : Nat) : List Int16 → Nat → Except Undefined Bytes
  | [], _ => .error .overread
  | u :: src, p =>
      if u = 0 then .ok []
      else do
        let xs ← substrLoop start behind src (p + 1)
        .ok ((if start ≤ p + 1 ∧ p + 1 < behind then xmlsAddUtf (asUnsigned u) else []) ++ xs)

/-- `xf_substr` on the string and the two numbers, of which the second may be missing. -/
def xfSubstr (elsewhere : Int → Int32) (s : Option CString) (start : Int32) (length : Option Int32) :
    Except Undefined (Option Bytes) :=
  match s with
  | none => .ok none
  | some s =>
      let given := length.getD Int32.maxValue
      if given < 0 then .ok none
      else do
        let src ← utf2wsBlock (some s)
        some <$> substrLoop (asSize start) (asSize (intSum elsewhere start given)) src 0

/-- The units in front of the first zero. -/
def characters (ws : List Int16) : List Int16 := ws.takeWhile fun u => u ≠ 0

/-- What a character is to become: the one at the index of its first
occurrence, nothing where there is none, itself where it does not occur. -/
def translated (pat sub : List Int16) (c : Int16) : Option Int16 :=
  match pat.idxOf? c with
  | none => some c
  | some j => sub[j]?

/-- Every character of the first string is translated once, and no element of
the third is read behind its terminator. -/
def Translates (string pattern substitute : CString) (src pat sub : List Int16) : Prop :=
  Exists fun xs => Exists fun read =>
    xfTranslate [some string, some pattern, some substitute] = .ok (some (xs, read)) ∧
      xs = (src.filterMap (translated pat sub)).flatMap (fun u => xmlsAddUtf (asUnsigned u)) ∧
      ∀ j ∈ read, j ≤ sub.length

/-- The character put in at the index `j` is found again further on, at `k` first. -/
def FoundAgain (pat sub : List Int16) (j k : Nat) : Prop :=
  Exists fun v => sub[j]? = some v ∧ j < k ∧ pat[k]? = some v ∧ ∀ i, j < i → i < k → pat[i]? ≠ some v

/-- What is found again from the index `j` on stays within the substitute, and
ends where the same character is put in as at `j`. -/
def Settles (pat sub : List Int16) (j : Nat) : Prop :=
  (∀ k, Relation.ReflTransGen (FoundAgain pat sub) j k → k ≤ sub.length) ∧
    Exists fun k => Relation.ReflTransGen (FoundAgain pat sub) j k ∧
      (∀ i, ¬ FoundAgain pat sub k i) ∧ sub[k]? = sub[j]?

/-! ## One character -/

section Replacement

variable {pat sub more : List Int16} {block : List Int16}

/-- The array has the characters, and a zero behind them. -/
def Backs (block sub : List Int16) : Prop :=
  ∀ i ≤ sub.length, unitAt block i = .ok (sub[i]?.getD 0)

/-- A replacement that was noted had an element and a run behind it. -/
theorem replacement_noted {run : Int16 → Except Undefined (Int16 × List Nat)} {j : Nat} {v : Int16}
    {read : List Nat}
    (done : (do
      let (last, read) ← run (← unitAt block j)
      .ok (last, j :: read)) = Except.ok (v, read)) :
    Exists fun w => Exists fun later =>
      unitAt block j = .ok w ∧ run w = .ok (v, later) ∧ read = j :: later := by
  cases put : unitAt block j with
  | error stop =>
      rw [put] at done
      cases done
  | ok w =>
      rw [put] at done
      simp only [bind, Except.bind] at done
      cases ran : run w with
      | error stop =>
          rw [ran] at done
          cases done
      | ok result =>
          rw [ran] at done
          cases done
          exact ⟨w, result.2, rfl, ran, rfl⟩

theorem replaceLoop_absent (visible : 0 ∉ pat) {v : Int16} (absent : v ∉ pat) (j : Nat) :
    replaceLoop block (pat ++ 0 :: more) j v = .ok (v, []) := by
  induction pat generalizing j with
  | nil => rfl
  | cons p pat inductionHypothesis =>
      rw [List.mem_cons, not_or] at visible absent
      rw [List.cons_append, replaceLoop, if_neg (Ne.symm visible.1), if_neg absent.1]
      exact inductionHypothesis visible.2 absent.2 (j + 1)

theorem replaceLoop_found {front : List Int16} (visible : 0 ∉ front) {v : Int16} (nonzero : v ≠ 0)
    (absent : v ∉ front) (j : Nat) :
    replaceLoop block (front ++ v :: more) j v = (do
      let (last, read) ← replaceLoop block more (j + front.length + 1)
        (← unitAt block (j + front.length))
      .ok (last, (j + front.length) :: read)) := by
  induction front generalizing j with
  | nil =>
      rw [List.nil_append, replaceLoop, if_neg nonzero, if_pos rfl]
      rfl
  | cons p front inductionHypothesis =>
      rw [List.mem_cons, not_or] at visible absent
      rw [List.cons_append, replaceLoop, if_neg (Ne.symm visible.1), if_neg absent.1,
        inductionHypothesis visible.2 absent.2 (j + 1), List.length_cons,
        show j + 1 + front.length = j + (front.length + 1) by omega]

theorem FoundAgain.unique {j k l : Nat} (first : FoundAgain pat sub j k)
    (second : FoundAgain pat sub j l) : k = l := by
  rcases first with ⟨v, put, behind, here, before⟩
  rcases second with ⟨w, put', behind', here', before'⟩
  rw [put] at put'
  obtain rfl := Option.some.inj put'
  by_contra different
  rcases Nat.lt_or_gt_of_ne different with earlier | later
  · exact before' k behind earlier here
  · exact before l behind' later here'

/-- The loop behind the index `j`, with the character put in there and not
found again so far. -/
theorem replaceLoop_behind (backs : Backs block sub) (rest : List Int16) {front : List Int16}
    (whole : pat = front ++ rest) (visible : 0 ∉ pat) {j : Nat} (behind : j < front.length)
    (within : j ≤ sub.length)
    (unseen : ∀ i, j < i → i < front.length → front[i]? ≠ some (sub[j]?.getD 0)) :
    ((∀ k, Relation.ReflTransGen (FoundAgain pat sub) j k → k ≤ sub.length) →
      Exists fun v => Exists fun read =>
        replaceLoop block (rest ++ 0 :: more) front.length (sub[j]?.getD 0) = .ok (v, read) ∧
          (∀ i ∈ read, i ≤ sub.length) ∧
          Exists fun k => Relation.ReflTransGen (FoundAgain pat sub) j k ∧
            (∀ i, ¬ FoundAgain pat sub k i) ∧ v = sub[k]?.getD 0) ∧
    ∀ v read, replaceLoop block (rest ++ 0 :: more) front.length (sub[j]?.getD 0) = .ok (v, read) →
      (∀ i ∈ read, i ≤ sub.length) →
      ∀ k, Relation.ReflTransGen (FoundAgain pat sub) j k → k ≤ sub.length := by
  induction rest generalizing front j with
  | nil =>
      have last : ∀ k, ¬ FoundAgain pat sub j k := by
        rintro k ⟨v, put, later, found, -⟩
        rw [whole, List.append_nil] at found
        have inside := (List.getElem?_eq_some_iff.mp found).1
        apply unseen k later inside
        rw [put, found]
        rfl
      have stays : ∀ k, Relation.ReflTransGen (FoundAgain pat sub) j k → k = j := by
        intro k path
        rcases path.cases_head with same | ⟨i, step, -⟩
        · exact same.symm
        · exact (last i step).elim
      refine ⟨fun _ => ⟨_, [], rfl, nofun, j, .refl, last, rfl⟩, fun _ _ _ _ k path => ?_⟩
      rwa [stays k path]
  | cons p rest inductionHypothesis =>
      have nonzero : p ≠ 0 := by
        rintro rfl
        exact visible (whole ▸ List.mem_append_right front List.mem_cons_self)
      have wider : pat = (front ++ [p]) ++ rest := by
        rw [whole, List.append_assoc]
        rfl
      have here : pat[front.length]? = some p := by
        rw [whole, List.getElem?_append_right (Nat.le_refl _), Nat.sub_self]
        rfl
      have length : (front ++ [p]).length = front.length + 1 := List.length_append
      rw [List.cons_append, replaceLoop, if_neg nonzero]
      by_cases found : sub[j]?.getD 0 = p
      · have put : sub[j]? = some p := by
          cases known : sub[j]? with
          | none =>
              rw [known] at found
              exact (nonzero found.symm).elim
          | some v =>
              rw [known] at found
              exact congrArg some found
        have next : FoundAgain pat sub j front.length := by
          refine ⟨p, put, behind, here, fun i later earlier same => unseen i later earlier ?_⟩
          rw [whole, List.getElem?_append_left earlier] at same
          rw [same, put]
          rfl
        have only : ∀ k, Relation.ReflTransGen (FoundAgain pat sub) j k →
            k = j ∨ Relation.ReflTransGen (FoundAgain pat sub) front.length k := by
          intro k path
          rcases path.cases_head with same | ⟨i, step, later⟩
          · exact .inl same.symm
          · rw [step.unique next] at later
            exact .inr later
        rw [if_pos found]
        refine ⟨fun bounded => ?_, fun v read done ends k path => ?_⟩
        · have inside := bounded _ (.single next)
          have step := (inductionHypothesis wider (j := front.length) (by omega) inside
            fun i later earlier => absurd earlier (by omega)).1 fun k path => bounded k (path.head next)
          rw [length] at step
          rcases step with ⟨v, read, done, ends, k, path, stops, value⟩
          rw [backs _ inside]
          simp only [bind, Except.bind, done]
          exact ⟨v, front.length :: read, rfl, List.forall_mem_cons.mpr ⟨inside, ends⟩, k,
            path.head next, stops, value⟩
        · rcases replacement_noted done with ⟨w, later, put', ran, rfl⟩
          have bounds := List.forall_mem_cons.mp ends
          rw [backs _ bounds.1] at put'
          obtain rfl := Except.ok.inj put'
          have step := (inductionHypothesis wider (j := front.length) (by omega) bounds.1
            fun i later earlier => absurd earlier (by omega)).2
          rw [length] at step
          rcases only k path with rfl | path
          · exact within
          · exact step _ _ ran bounds.2 k path
      · have step := inductionHypothesis wider (j := j) (by omega) within fun i later earlier => by
          rw [length] at earlier
          rcases Nat.lt_or_eq_of_le (Nat.le_of_lt_succ earlier) with earlier | rfl
          · rw [List.getElem?_append_left earlier]
            exact unseen i later earlier
          · rw [List.getElem?_append_right (Nat.le_refl _), Nat.sub_self]
            exact fun same => found (Option.some.inj same).symm
        rw [if_neg found]
        rw [length] at step
        exact step

/-- Where what is found again from an index on ends is determined. -/
theorem FoundAgain.end_unique {j k l : Nat} (first : Relation.ReflTransGen (FoundAgain pat sub) j k)
    (second : Relation.ReflTransGen (FoundAgain pat sub) j l) (stops : ∀ i, ¬ FoundAgain pat sub k i)
    (stops' : ∀ i, ¬ FoundAgain pat sub l i) : k = l := by
  have determined : Relator.RightUnique (FoundAgain pat sub) := fun _ _ _ here there =>
    here.unique there
  have joined := Relation.ReflTransGen.total_of_right_unique determined first second
  rcases joined with path | path
  · rcases path.cases_head with same | ⟨i, step, -⟩
    · exact same
    · exact (stops i step).elim
  · rcases path.cases_head with same | ⟨i, step, -⟩
    · exact same.symm
    · exact (stops' i step).elim

/-- The indices met from the first occurrence of a character on are within the substitute. -/
def Within (pat sub : List Int16) (c : Int16) : Prop :=
  ∀ j, pat.idxOf? c = some j → ∀ k, Relation.ReflTransGen (FoundAgain pat sub) j k → k ≤ sub.length

/-- The value a character ends with. -/
def EndsAs (pat sub : List Int16) (c v : Int16) : Prop :=
  match pat.idxOf? c with
  | none => v = c
  | some j => Exists fun k => Relation.ReflTransGen (FoundAgain pat sub) j k ∧
      (∀ i, ¬ FoundAgain pat sub k i) ∧ v = sub[k]?.getD 0

theorem first_occurrence {c : Int16} {j : Nat} (first : pat.idxOf? c = some j) :
    c ∉ pat.take j ∧ pat = pat.take j ++ c :: pat.drop (j + 1) ∧ (pat.take j).length = j := by
  rcases List.idxOf?_eq_some_iff.mp first with ⟨inside, here, before⟩
  refine ⟨fun member => ?_, ?_, List.length_take_of_le (Nat.le_of_lt inside)⟩
  · rcases List.mem_iff_getElem.mp member with ⟨i, bound, same⟩
    rw [List.length_take] at bound
    rw [List.getElem_take] at same
    exact before i (by omega) same
  · rw [← here, ← List.drop_eq_getElem_cons inside, List.take_append_drop]

/-- What the inner loop does to a character. -/
theorem replaceLoop_char (backs : Backs block sub) (visible : 0 ∉ pat) {c : Int16}
    (nonzero : c ≠ 0) :
    (Within pat sub c → Exists fun v => Exists fun read =>
      replaceLoop block (pat ++ 0 :: more) 0 c = .ok (v, read) ∧ (∀ i ∈ read, i ≤ sub.length) ∧
        EndsAs pat sub c v) ∧
    ∀ v read, replaceLoop block (pat ++ 0 :: more) 0 c = .ok (v, read) →
      (∀ i ∈ read, i ≤ sub.length) → Within pat sub c := by
  cases first : pat.idxOf? c with
  | none =>
      have absent := List.idxOf?_eq_none_iff.mp first
      refine ⟨fun _ => ⟨c, [], replaceLoop_absent visible absent 0, nofun, ?_⟩, fun _ _ _ _ j here => ?_⟩
      · rw [EndsAs, first]
      · cases first.symm.trans here
  | some j =>
      rcases first_occurrence first with ⟨absent, whole, length⟩
      have hidden : 0 ∉ pat.take j := fun member => visible (List.mem_of_mem_take member)
      have only : Within pat sub c ↔
          ∀ k, Relation.ReflTransGen (FoundAgain pat sub) j k → k ≤ sub.length := by
        refine ⟨fun within => within j first, fun bounded i here => ?_⟩
        rw [← Option.some.inj (first.symm.trans here)]
        exact bounded
      have run : replaceLoop block (pat ++ 0 :: more) 0 c = (do
          let (last, read) ← replaceLoop block (pat.drop (j + 1) ++ 0 :: more) (j + 1)
            (← unitAt block j)
          .ok (last, j :: read)) := by
        have found := @replaceLoop_found (pat.drop (j + 1) ++ 0 :: more) block _ hidden c nonzero
          absent 0
        rw [length, Nat.zero_add, ← List.cons_append, ← List.append_assoc, ← whole] at found
        exact found
      have wider : pat = (pat.take j ++ [c]) ++ pat.drop (j + 1) := by
        rw [List.append_assoc]
        exact whole
      have front : (pat.take j ++ [c]).length = j + 1 := by
        rw [List.length_append, length]
        rfl
      have behind : j ≤ sub.length → _ := fun inside =>
        @replaceLoop_behind pat sub more block backs _ _ wider visible j (by omega) inside
          fun i later earlier => absurd earlier (by omega)
      rw [front] at behind
      rw [run, only]
      refine ⟨fun bounded => ?_, fun v read done ends => ?_⟩
      · have inside := bounded j .refl
        rcases (behind inside).1 bounded with ⟨v, read, done, ends, k, path, stops, value⟩
        rw [backs j inside]
        simp only [bind, Except.bind, done]
        refine ⟨v, j :: read, rfl, List.forall_mem_cons.mpr ⟨inside, ends⟩, ?_⟩
        rw [EndsAs, first]
        exact ⟨k, path, stops, value⟩
      · rcases replacement_noted done with ⟨w, later, put, ran, rfl⟩
        have bounds := List.forall_mem_cons.mp ends
        rw [backs j bounds.1] at put
        obtain rfl := Except.ok.inj put
        exact (behind bounds.1).2 _ _ ran bounds.2

/-- A character ends as it is to become iff what is found again settles. -/
theorem EndsAs.right_iff (visible : 0 ∉ sub) {c v : Int16} (within : Within pat sub c)
    (ends : EndsAs pat sub c v) :
    v = (translated pat sub c).getD 0 ↔ ∀ j, pat.idxOf? c = some j → Settles pat sub j := by
  rw [EndsAs] at ends
  rw [translated]
  cases first : pat.idxOf? c with
  | none =>
      rw [first] at ends
      exact ⟨fun _ => nofun, fun _ => ends⟩
  | some j =>
      rw [first] at ends
      rcases ends with ⟨k, path, stops, rfl⟩
      have apart : ∀ i : Nat, sub[i]? ≠ some 0 := fun i zero => visible (List.mem_of_getElem? zero)
      constructor
      · rintro same i ⟨⟩
        change sub[k]?.getD 0 = sub[j]?.getD 0 at same
        refine ⟨within j first, k, path, stops, ?_⟩
        match left : sub[k]?, right : sub[j]? with
        | none, none => rfl
        | none, some w =>
            rw [left, right] at same
            exact (apart j (right.trans (congrArg some same.symm))).elim
        | some v, none =>
            rw [left, right] at same
            exact (apart k (left.trans (congrArg some same))).elim
        | some v, some w =>
            rw [left, right] at same
            exact congrArg some same
      · intro settles
        rcases settles j rfl with ⟨-, l, path', stops', same⟩
        show sub[k]?.getD 0 = sub[j]?.getD 0
        rw [FoundAgain.end_unique path path' stops stops', same]

/-- A character is dropped where the substitute has no character for it. -/
theorem EndsAs.dropped {c v : Int16} (ends : EndsAs pat sub c v)
    (nothing : translated pat sub c = none) : v = 0 := by
  rw [EndsAs] at ends
  rw [translated] at nothing
  cases first : pat.idxOf? c with
  | none =>
      rw [first] at nothing
      cases nothing
  | some j =>
      rw [first] at ends nothing
      change sub[j]? = none at nothing
      rcases ends with ⟨k, path, -, rfl⟩
      rcases path.cases_head with rfl | ⟨i, ⟨w, put, -⟩, -⟩
      · rw [nothing]
        rfl
      · cases nothing.symm.trans put

/-- A value is the character itself, one of the substitute, or zero. -/
theorem EndsAs.nonneg {c v : Int16} (ends : EndsAs pat sub c v) (here : 0 ≤ c.toInt)
    (below : ∀ u ∈ sub, 0 ≤ u.toInt) : 0 ≤ v.toInt := by
  rw [EndsAs] at ends
  cases first : pat.idxOf? c with
  | none =>
      rw [first] at ends
      exact ends ▸ here
  | some j =>
      rw [first] at ends
      rcases ends with ⟨k, -, -, rfl⟩
      cases put : sub[k]? with
      | none => exact Int.le_refl 0
      | some w => exact below w (List.mem_of_getElem? put)

end Replacement

/-! ## All characters -/

/-- The character with the number of a unit. -/
def charOf (u : Int16) : Char := Char.ofNat (asUnsigned u)

theorem asUnsigned_nonneg {u : Int16} (positive : 0 ≤ u.toInt) :
    (asUnsigned u : Int) = u.toInt ∧ asUnsigned u < 0x8000 := by
  have bound := u.toInt_lt
  rw [asUnsigned]
  omega

theorem toNat_charOf {u : Int16} (positive : 0 ≤ u.toInt) : (charOf u).toNat = asUnsigned u := by
  have valid : (asUnsigned u).isValidChar :=
    .inl (Nat.lt_trans (asUnsigned_nonneg positive).2 (by decide))
  rw [charOf, Char.ofNat, dif_pos valid]
  rfl

theorem xmlsAddUtf_unit {u : Int16} (positive : 0 ≤ u.toInt) :
    xmlsAddUtf (asUnsigned u) = String.utf8EncodeChar (charOf u) := by
  rw [← Parse.xmlsAddUtf_char, toNat_charOf positive]

/-- Units that are characters below U+8000 are told apart by their bytes. -/
theorem encoded_injective {us vs : List Int16} (left : ∀ u ∈ us, 0 ≤ u.toInt)
    (right : ∀ u ∈ vs, 0 ≤ u.toInt)
    (same : us.flatMap (fun u => xmlsAddUtf (asUnsigned u)) =
      vs.flatMap fun u => xmlsAddUtf (asUnsigned u)) : us = vs := by
  have encoded : ∀ {ws : List Int16}, (∀ u ∈ ws, 0 ≤ u.toInt) →
      ws.flatMap (fun u => xmlsAddUtf (asUnsigned u)) =
        (ws.map charOf).flatMap String.utf8EncodeChar := by
    intro ws positive
    rw [List.flatMap_map]
    exact List.flatMap_congr fun u member => xmlsAddUtf_unit (positive u member)
  rw [encoded left, encoded right] at same
  have chars : us.map charOf = vs.map charOf := by
    apply String.ofList_injective
    apply String.toByteArray_inj.mp
    rw [String.toByteArray_ofList, String.toByteArray_ofList, List.utf8Encode, List.utf8Encode, same]
  have back : ∀ {ws : List Int16}, (∀ u ∈ ws, 0 ≤ u.toInt) →
      ((ws.map charOf).map fun c => Int16.ofInt c.toNat) = ws := by
    intro ws positive
    rw [List.map_map]
    refine (List.map_congr_left fun u member => ?_).trans (List.map_id ws)
    rw [Function.comp_apply, toNat_charOf (positive u member),
      (asUnsigned_nonneg (positive u member)).1, Int16.ofInt_toInt]
    rfl
  rw [← back left, chars, back right]

/-- Where a missing replacement is a zero, the values other than zero are the
replacements iff each value is one. -/
theorem filter_eq_filterMap_iff {t : Int16 → Option Int16} {v : Int16 → Int16} {src : List Int16}
    (visible : ∀ c ∈ src, t c ≠ some 0) (dropped : ∀ c ∈ src, t c = none → v c = 0) :
    ((src.map v).filter fun u => u ≠ 0).length ≤ (src.filterMap t).length ∧
      (((src.map v).filter fun u => u ≠ 0) = src.filterMap t ↔ ∀ c ∈ src, v c = (t c).getD 0) := by
  induction src with
  | nil => exact ⟨Nat.le_refl _, fun _ => nofun, fun _ => rfl⟩
  | cons c src inductionHypothesis =>
      rcases List.forall_mem_cons.mp dropped with ⟨here, later⟩
      rcases List.forall_mem_cons.mp visible with ⟨shown, visible⟩
      rcases inductionHypothesis visible later with ⟨bound, exactly⟩
      rw [List.forall_mem_cons, ← exactly, List.map_cons]
      cases known : t c with
      | none =>
          rw [List.filterMap_cons_none known, List.filter_cons_of_neg (by simp [here known])]
          exact ⟨bound, fun same => ⟨here known, same⟩, And.right⟩
      | some w =>
          have nonzero : w ≠ 0 := fun zero => shown (known.trans (congrArg some zero))
          rw [List.filterMap_cons_some known, Option.getD_some]
          by_cases zero : v c = 0
          · rw [List.filter_cons_of_neg (by simp [zero]), List.length_cons]
            refine ⟨Nat.le_succ_of_le bound, fun same => ?_, fun both => ?_⟩
            · have lengths := congrArg List.length same
              rw [List.length_cons] at lengths
              omega
            · exact (nonzero (both.1.symm.trans zero)).elim
          · rw [List.filter_cons_of_pos (by simpa using zero), List.length_cons, List.length_cons,
              List.cons.injEq]
            exact ⟨Nat.succ_le_succ bound, Iff.rfl⟩

/-- What `xf_translate` appends for a value. -/
def appendedUnit (v : Int16) : Bytes := if v ≠ 0 then xmlsAddUtf (asUnsigned v) else []

theorem flatMap_appendedUnit (vs : List Int16) :
    vs.flatMap appendedUnit =
      (vs.filter fun v => v ≠ 0).flatMap fun v => xmlsAddUtf (asUnsigned v) := by
  induction vs with
  | nil => rfl
  | cons v vs inductionHypothesis =>
      rw [List.flatMap_cons, inductionHypothesis, appendedUnit]
      by_cases zero : v = 0
      · rw [if_neg (not_not.mpr zero), List.filter_cons_of_neg (by simp [zero])]
        rfl
      · rw [if_pos zero, List.filter_cons_of_pos (by simpa using zero), List.flatMap_cons]

section Translation

variable {src pat sub more : List Int16} {patBlock subBlock : List Int16}

/-- The outer loop on characters the inner loop can work on. -/
theorem translateLoop_ok (visible : 0 ∉ src) {turn : Int16 → Int16 × List Nat}
    (turns : ∀ c ∈ src, replaceLoop subBlock patBlock 0 c = .ok (turn c)) :
    translateLoop patBlock subBlock (src ++ 0 :: more) =
      .ok (src.flatMap fun c => appendedUnit (turn c).1, src.flatMap fun c => (turn c).2) := by
  induction src with
  | nil => rfl
  | cons c src inductionHypothesis =>
      rw [List.mem_cons, not_or] at visible
      rcases List.forall_mem_cons.mp turns with ⟨here, later⟩
      rw [List.cons_append, translateLoop, if_neg (Ne.symm visible.1), here,
        inductionHypothesis visible.2 later]
      rfl

/-- Where the outer loop ends, the inner loop did for every character. -/
theorem translateLoop_turns (visible : 0 ∉ src) {result : Bytes × List Nat}
    (done : translateLoop patBlock subBlock (src ++ 0 :: more) = .ok result) :
    ∀ c ∈ src, Exists fun turn => replaceLoop subBlock patBlock 0 c = .ok turn := by
  induction src generalizing result with
  | nil => exact nofun
  | cons c src inductionHypothesis =>
      rw [List.mem_cons, not_or] at visible
      rw [List.cons_append, translateLoop, if_neg (Ne.symm visible.1)] at done
      cases here : replaceLoop subBlock patBlock 0 c with
      | error stop =>
          rw [here] at done
          cases done
      | ok turn =>
          cases later : translateLoop patBlock subBlock (src ++ 0 :: more) with
          | error stop =>
              rw [here, later] at done
              cases done
          | ok rest =>
              exact List.forall_mem_cons.mpr ⟨⟨turn, here⟩, inductionHypothesis visible.2 later⟩

/-- All characters are translated, with all reads within, iff what is found
again settles. -/
theorem translateLoop_right_iff (backs : Backs subBlock sub) (visible : 0 ∉ src)
    (visiblePat : 0 ∉ pat) (visibleSub : 0 ∉ sub)
    (below : ∀ u ∈ src ++ pat ++ sub, 0 ≤ u.toInt) {patMore : List Int16} :
    (Exists fun xs => Exists fun read =>
      translateLoop (pat ++ 0 :: patMore) subBlock (src ++ 0 :: more) = .ok (xs, read) ∧
        xs = (src.filterMap (translated pat sub)).flatMap (fun u => xmlsAddUtf (asUnsigned u)) ∧
        ∀ j ∈ read, j ≤ sub.length) ↔
    ∀ c ∈ src, ∀ j, pat.idxOf? c = some j → Settles pat sub j := by
  have belowSub : ∀ u ∈ sub, 0 ≤ u.toInt := fun u member =>
    below u (List.mem_append_right (src ++ pat) member)
  have belowSrc : ∀ c ∈ src, 0 ≤ c.toInt := fun c member =>
    below c (List.mem_append_left sub (List.mem_append_left pat member))
  have nonzero : ∀ c ∈ src, c ≠ 0 := fun c member zero => visible (zero ▸ member)
  have replacement : ∀ c ∈ src, ∀ w, translated pat sub c = some w → w ≠ 0 ∧ 0 ≤ w.toInt := by
    intro c member w known
    rw [translated] at known
    cases first : pat.idxOf? c with
    | none =>
        rw [first] at known
        cases known
        exact ⟨nonzero c member, belowSrc c member⟩
    | some j =>
        rw [first] at known
        have put := List.mem_of_getElem? known
        exact ⟨fun zero => visibleSub (zero ▸ put), belowSub w put⟩
  -- On the characters whose reads are within, both sides speak of the values.
  have exactly : ∀ {turn : Int16 → Int16 × List Nat},
      (∀ c ∈ src, Within pat sub c ∧ EndsAs pat sub c (turn c).1) →
      (src.flatMap (fun c => appendedUnit (turn c).1) =
          (src.filterMap (translated pat sub)).flatMap (fun u => xmlsAddUtf (asUnsigned u)) ↔
        ∀ c ∈ src, ∀ j, pat.idxOf? c = some j → Settles pat sub j) := by
    intro turn known
    have values : src.flatMap (fun c => appendedUnit (turn c).1) =
        ((src.map fun c => (turn c).1).filter fun v => v ≠ 0).flatMap
          fun v => xmlsAddUtf (asUnsigned v) := by
      rw [← flatMap_appendedUnit, List.flatMap_map]
    have left : ∀ v ∈ (src.map fun c => (turn c).1).filter (fun v => v ≠ 0), 0 ≤ v.toInt := by
      intro v member
      rcases List.mem_map.mp (List.mem_of_mem_filter member) with ⟨c, inside, rfl⟩
      exact (known c inside).2.nonneg (belowSrc c inside) belowSub
    have right : ∀ w ∈ src.filterMap (translated pat sub), 0 ≤ w.toInt := by
      intro w member
      rcases List.mem_filterMap.mp member with ⟨c, inside, put⟩
      exact (replacement c inside w put).2
    have units := (filter_eq_filterMap_iff (v := fun c => (turn c).1)
      (fun c member zero => (replacement c member 0 zero).1 rfl)
      fun c member nothing => (known c member).2.dropped nothing).2
    rw [values]
    constructor
    · intro same c member
      have right_ := units.mp (encoded_injective left right same) c member
      exact ((known c member).2.right_iff visibleSub (known c member).1).mp right_
    · intro settles
      rw [units.mpr fun c member =>
        ((known c member).2.right_iff visibleSub (known c member).1).mpr (settles c member)]
  have inner := fun c (member : c ∈ src) =>
    @replaceLoop_char pat sub patMore subBlock backs visiblePat c (nonzero c member)
  constructor
  · rintro ⟨xs, read, done, string, ends⟩
    choose! turn turns using translateLoop_turns visible done
    rw [translateLoop_ok visible turns] at done
    cases done
    refine (exactly fun c member => ?_).mp string
    have bounds : ∀ i ∈ (turn c).2, i ≤ sub.length := fun i inside =>
      ends i (List.mem_flatMap.mpr ⟨c, member, inside⟩)
    have within := (inner c member).2 _ _ (turns c member) bounds
    rcases (inner c member).1 within with ⟨v, read, done, -, value⟩
    rw [turns c member] at done
    rw [Except.ok.inj done]
    exact ⟨within, value⟩
  · intro settles
    have within : ∀ c ∈ src, Within pat sub c := fun c member j first => (settles c member j first).1
    have turns : ∀ c ∈ src, Exists fun turn =>
        replaceLoop subBlock (pat ++ 0 :: patMore) 0 c = .ok turn ∧
          (∀ i ∈ turn.2, i ≤ sub.length) ∧ EndsAs pat sub c turn.1 := by
      intro c member
      rcases (inner c member).1 (within c member) with ⟨v, read, done, ends, value⟩
      exact ⟨(v, read), done, ends, value⟩
    choose! turn turns using turns
    refine ⟨_, _, translateLoop_ok visible fun c member => (turns c member).1,
      (exactly fun c member => ⟨within c member, (turns c member).2.2⟩).mpr settles, ?_⟩
    intro j member
    rcases List.mem_flatMap.mp member with ⟨c, inside, read⟩
    exact (turns c inside).2.1 j read

end Translation

/-- An array has its characters, and a zero behind them. -/
theorem block_characters {s : CString} {ws : List Int16} (done : utf2ws s = .ok ws) :
    0 ∉ characters ws ∧ Exists fun more => block s ws = characters ws ++ 0 :: more := by
  have short := (utf2wsLoop_ok_iff s.noNul (Nat.zero_le intMax)).2 ws done
  constructor
  · intro member
    exact absurd (List.mem_takeWhile_imp member) (by decide)
  · have parts : ws = characters ws ++ ws.dropWhile fun u => u ≠ 0 :=
      List.takeWhile_append_dropWhile.symm
    cases rest : ws.dropWhile fun u => u ≠ 0 with
    | nil =>
        rw [rest, List.append_nil] at parts
        refine ⟨List.replicate (s.bytes.length - ws.length) 0, ?_⟩
        rw [← parts, block, Nat.sub_add_comm short]
        rfl
    | cons u rest_ =>
        have zero : u = 0 := by
          have stopped := List.head?_dropWhile_not (fun u : Int16 => decide (u ≠ 0)) ws
          rw [rest] at stopped
          simpa using stopped
        rw [rest, zero] at parts
        refine ⟨rest_ ++ List.replicate (s.bytes.length + 1 - ws.length) 0, ?_⟩
        rw [block]
        nth_rewrite 1 [parts]
        rw [List.append_assoc]
        rfl

theorem backs_characters {sub more : List Int16} : Backs (sub ++ 0 :: more) sub := by
  intro i inside
  rw [unitAt]
  rcases Nat.lt_or_eq_of_le inside with inside | rfl
  · rw [List.getElem?_append_left inside, List.getElem?_eq_getElem inside]
    rfl
  · rw [List.getElem?_append_right (Nat.le_refl _), Nat.sub_self,
      List.getElem?_eq_none_iff.mpr (Nat.le_refl _)]
    rfl

/-- `translate` replaces every character by its first occurrence alone, and
reads no element behind a terminator, iff what is found again settles: from
the first occurrence of each character of the string on, the characters put in
that are found again further on lead to no index outside of the substitute,
and in the end to the character that was put in first. -/
theorem translate_right_iff (string pattern substitute : CString) {src pat sub : List Int16}
    (readSrc : utf2ws string = .ok src) (readPat : utf2ws pattern = .ok pat)
    (readSub : utf2ws substitute = .ok sub)
    (below : ∀ u ∈ characters src ++ characters pat ++ characters sub, 0 ≤ u.toInt) :
    Translates string pattern substitute (characters src) (characters pat) (characters sub) ↔
      ∀ c ∈ characters src, ∀ j, (characters pat).idxOf? c = some j →
        Settles (characters pat) (characters sub) j := by
  rcases block_characters readSrc with ⟨visibleSrc, moreSrc, arraySrc⟩
  rcases block_characters readPat with ⟨visiblePat, morePat, arrayPat⟩
  rcases block_characters readSub with ⟨visibleSub, moreSub, arraySub⟩
  have run : xfTranslate [some string, some pattern, some substitute] =
      some <$> translateLoop (characters pat ++ 0 :: morePat) (characters sub ++ 0 :: moreSub)
        (characters src ++ 0 :: moreSrc) := by
    rw [xfTranslate, utf2wsBlock, utf2wsBlock, utf2wsBlock, readSrc, readPat, readSub, ← arraySrc,
      ← arrayPat, ← arraySub]
    rfl
  rw [← @translateLoop_right_iff _ _ _ moreSrc _ (@backs_characters _ moreSub) visibleSrc
    visiblePat visibleSub below morePat, Translates, run]
  apply exists_congr
  intro xs
  apply exists_congr
  intro read
  apply and_congr_left'
  cases translateLoop (characters pat ++ 0 :: morePat) (characters sub ++ 0 :: moreSub)
    (characters src ++ 0 :: moreSrc) with
  | error stop => exact ⟨nofun, nofun⟩
  | ok result =>
      refine ⟨fun done => ?_, fun done => ?_⟩
      · cases done
        rfl
      · cases done
        rfl

/-- `translate('ab', 'ab', 'xy')` -/
theorem translate_letters :
    Translates ⟨lit "ab", by decide⟩ ⟨lit "ab", by decide⟩ ⟨lit "xy", by decide⟩
        (characters [97, 98]) (characters [97, 98]) (characters [120, 121]) ↔
      ∀ c ∈ characters [97, 98], ∀ j, (characters [97, 98]).idxOf? c = some j →
        Settles (characters [97, 98]) (characters [120, 121]) j :=
  translate_right_iff _ _ _ rfl rfl rfl (by simp [characters])

/-- `translate('a', 'ab', 'bc')`: the `b` put in is replaced again. -/
theorem replaced_character_is_translated_again :
    ¬ ∀ (string pattern substitute : CString) (src pat sub : List Int16),
      utf2ws string = .ok src → utf2ws pattern = .ok pat → utf2ws substitute = .ok sub →
      (∀ u ∈ characters src ++ characters pat ++ characters sub, 0 ≤ u.toInt) →
      Translates string pattern substitute (characters src) (characters pat) (characters sub) := by
  intro translates
  rcases translates ⟨lit "a", by decide⟩ ⟨lit "ab", by decide⟩ ⟨lit "bc", by decide⟩ [97] [97, 98]
    [98, 99] rfl rfl rfl (by simp [characters]) with ⟨xs, read, done, string, -⟩
  have run : xfTranslate [some ⟨lit "a", by decide⟩, some ⟨lit "ab", by decide⟩,
      some ⟨lit "bc", by decide⟩] = .ok (some (lit "c", [0, 1])) := by rfl
  cases run.symm.trans done
  exact absurd string (by decide)

/-! ## Substrings -/

/-- The bytes of a unit. -/
def encodeUnit (u : Int16) : Bytes := xmlsAddUtf (u.toInt % 2 ^ 16).toNat

/-- The position is among those asked for. -/
def Chosen (start : Int32) (length : Option Int32) (p : Nat) : Prop :=
  start.toInt ≤ p ∧ ∀ given ∈ length, (p : Int) < start.toInt + given.toInt

instance (start : Int32) (length : Option Int32) (p : Nat) : Decidable (Chosen start length p) :=
  inferInstanceAs (Decidable (_ ∧ _))

/-- The units at the positions asked for, and no others. -/
def Selects (elsewhere : Int → Int32) (string : CString) (units : List Int16) (start : Int32)
    (length : Option Int32) : Prop :=
  xfSubstr elsewhere (some string) start length =
    .ok (some ((units.zipIdx 1).flatMap fun place =>
      if Chosen start length place.2 then encodeUnit place.1 else []))

/-- A unit that is asked for is reached: the start is not negative, the unit
is below `0x8000`, it is not the last of the longest string, and where the sum
is none, what the machine gives lies behind it. -/
def Reached (elsewhere : Int → Int32) (start : Int32) (length : Option Int32) (u : Int16)
    (p : Nat) : Prop :=
  0 ≤ start.toInt ∧ 0 ≤ u.toInt ∧ (length = none → start.toInt = 0 → p < intMax) ∧
    let sum := start.toInt + (length.getD Int32.maxValue).toInt
    2 ^ 31 ≤ sum → p < asSize (elsewhere sum)

/-- Where each piece is the one it should be or nothing, all together are right
iff each is. -/
theorem flatMap_eq_iff {α : Type} {f g : α → Bytes} {l : List α}
    (pieces : ∀ a ∈ l, f a = g a ∨ f a = [] ∧ g a ≠ []) :
    (l.flatMap f).length ≤ (l.flatMap g).length ∧
      (l.flatMap f = l.flatMap g ↔ ∀ a ∈ l, f a = g a) := by
  induction l with
  | nil => exact ⟨Nat.le_refl _, fun _ => nofun, fun _ => rfl⟩
  | cons a l inductionHypothesis =>
      rcases List.forall_mem_cons.mp pieces with ⟨here, later⟩
      rcases inductionHypothesis later with ⟨bound, exactly⟩
      rw [List.forall_mem_cons, ← exactly, List.flatMap_cons, List.flatMap_cons, List.length_append,
        List.length_append]
      rcases here with same | ⟨nothing, some_⟩
      · rw [same]
        exact ⟨Nat.add_le_add_left bound _, fun all => ⟨rfl, List.append_cancel_left all⟩,
          fun both => by rw [both.2]⟩
      · have positive := List.length_pos_iff.mpr some_
        rw [nothing]
        refine ⟨by rw [List.length_nil]; omega, fun all => ?_, fun both => absurd both.1.symm some_⟩
        have lengths := congrArg List.length all
        rw [List.length_append, List.length_append, List.length_nil] at lengths
        omega

theorem substrLoop_eq {units : List Int16} (visible : 0 ∉ units) (more : List Int16)
    (start behind p : Nat) :
    substrLoop start behind (units ++ 0 :: more) p =
      .ok ((units.zipIdx (p + 1)).flatMap fun place =>
        if start ≤ place.2 ∧ place.2 < behind then xmlsAddUtf (asUnsigned place.1) else []) := by
  induction units generalizing p with
  | nil => rfl
  | cons u units inductionHypothesis =>
      rw [List.mem_cons, not_or] at visible
      rw [List.cons_append, substrLoop, if_neg (Ne.symm visible.1), inductionHypothesis visible.2]
      rfl

theorem encodeUnit_ne_nil (u : Int16) : encodeUnit u ≠ [] := by
  have bound : (u.toInt % 2 ^ 16).toNat < 0x10000 := by omega
  rw [encodeUnit, xmlsAddUtf]
  split
  · exact List.cons_ne_nil _ _
  · split <;> exact List.cons_ne_nil _ _

/-- A unit is appended as it is to be encoded, or not at all. -/
theorem xmlsAddUtf_asUnsigned (u : Int16) :
    xmlsAddUtf (asUnsigned u) = if 0 ≤ u.toInt then encodeUnit u else [] := by
  have low := u.le_toInt
  have high := u.toInt_lt
  by_cases positive : 0 ≤ u.toInt
  · rw [if_pos positive, encodeUnit, asUnsigned]
    congr 2
    omega
  · have large : 0x200000 ≤ asUnsigned u := by
      rw [asUnsigned]
      omega
    rw [if_neg positive, xmlsAddUtf, if_neg (by omega), if_neg (by omega), if_neg (by omega),
      if_neg (by omega)]

/-- The two comparisons with a position of the string. -/
theorem compared_iff (elsewhere : Int → Int32) {start : Int32} {length : Option Int32}
    (positive : ∀ given ∈ length, 0 ≤ given.toInt) {p : Nat} (inside : p ≤ intMax) :
    asSize start ≤ p ∧ p < asSize (intSum elsewhere start (length.getD Int32.maxValue)) ↔
      Chosen start length p ∧ 0 ≤ start.toInt ∧ (length = none → start.toInt = 0 → p < intMax) ∧
        let sum := start.toInt + (length.getD Int32.maxValue).toInt
        2 ^ 31 ≤ sum → p < asSize (elsewhere sum) := by
  have low := start.le_toInt
  have high := start.toInt_lt
  have most : intMax = 2147483647 := rfl
  have largest : Int32.maxValue.toInt = 2147483647 := rfl
  have left : asSize start ≤ p ↔ 0 ≤ start.toInt ∧ start.toInt ≤ p := by
    rw [asSize]
    omega
  rw [left, intSum, Chosen]
  cases length with
  | none =>
      simp only [Option.getD_none, largest, Option.not_mem_none, false_implies, implies_true, and_true,
        true_implies]
      by_cases fits : start.toInt + 2147483647 < 2 ^ 31
      · rw [if_pos ⟨by omega, fits⟩, asSize, Int32.toInt_ofInt_of_le (by omega) (by omega)]
        omega
      · rw [if_neg (fun both => fits both.2)]
        omega
  | some given =>
      have least := positive given rfl
      have bound := given.toInt_lt
      simp only [Option.getD_some, Option.mem_some_iff, forall_eq', reduceCtorEq, false_implies,
        true_and]
      by_cases fits : start.toInt + given.toInt < 2 ^ 31
      · rw [if_pos ⟨by omega, fits⟩, asSize, Int32.toInt_ofInt_of_le (by omega) (by omega)]
        omega
      · rw [if_neg (fun both => fits both.2)]
        omega

/-- `substring` gives the units whose positions are asked for iff each of them is reached. -/
theorem substring_right_iff (elsewhere : Int → Int32) (string : CString) {ws : List Int16}
    (readable : utf2ws string = .ok ws) (start : Int32) (length : Option Int32)
    (positive : ∀ given ∈ length, 0 ≤ given.toInt) :
    Selects elsewhere string (characters ws) start length ↔
      ∀ place ∈ (characters ws).zipIdx 1, Chosen start length place.2 →
        Reached elsewhere start length place.1 place.2 := by
  have loop := utf2wsLoop_ok_iff string.noNul (Nat.zero_le intMax)
  have fits := (loop.1.mp ⟨ws, readable⟩).2
  have short := loop.2 ws readable
  rcases block_characters readable with ⟨visible, more, array⟩
  have nonneg : ¬ length.getD Int32.maxValue < 0 := by
    rw [Int32.lt_iff_toInt_lt, Int.not_lt]
    cases length with
    | none => decide
    | some given => exact positive given rfl
  have run : xfSubstr elsewhere (some string) start length =
      some <$> substrLoop (asSize start) (asSize (intSum elsewhere start (length.getD Int32.maxValue)))
        (characters ws ++ 0 :: more) 0 := by
    rw [xfSubstr, if_neg nonneg, utf2wsBlock, readable, ← array]
    rfl
  have inside : ∀ place ∈ (characters ws).zipIdx 1, place.2 ≤ intMax := by
    intro place member
    have bound := (List.mem_zipIdx member).2.1
    have shorter := (List.takeWhile_sublist (fun u : Int16 => decide (u ≠ 0)) (l := ws)).length_le
    rw [characters] at bound
    omega
  have pieces : ∀ place ∈ (characters ws).zipIdx 1,
      let appended := if asSize start ≤ place.2 ∧
          place.2 < asSize (intSum elsewhere start (length.getD Int32.maxValue)) then
        xmlsAddUtf (asUnsigned place.1) else []
      let wanted := if Chosen start length place.2 then encodeUnit place.1 else []
      (appended = wanted ∨ appended = [] ∧ wanted ≠ []) ∧
        (appended = wanted ↔ Chosen start length place.2 →
          Reached elsewhere start length place.1 place.2) := by
    intro place member
    have filled := encodeUnit_ne_nil place.1
    simp only [compared_iff elsewhere positive (inside place member), xmlsAddUtf_asUnsigned, Reached]
    by_cases chosen : Chosen start length place.2
    · simp only [chosen, true_and, if_true, true_implies]
      by_cases unit : 0 ≤ place.1.toInt
      · simp only [unit, if_true, true_and]
        split
        next reached => exact ⟨.inl rfl, fun _ => reached, fun _ => rfl⟩
        next missed => exact ⟨.inr ⟨rfl, filled⟩, fun same => absurd same.symm filled, fun reached =>
          absurd reached missed⟩
      · simp only [unit, if_false, ite_self, false_and, and_false]
        exact ⟨.inr ⟨trivial, filled⟩, fun same => filled same.symm, False.elim⟩
    · simp only [chosen, false_and, if_false, false_implies]
      exact ⟨.inl trivial, trivial⟩
  rw [Selects, run, substrLoop_eq visible]
  have whole := (flatMap_eq_iff fun place member => (pieces place member).1).2
  constructor
  · intro done place member
    have same : _ = _ := Option.some.inj (Except.ok.inj done)
    exact (pieces place member).2.mp (whole.mp same place member)
  · intro reached
    have same := whole.mpr fun place member => (pieces place member).2.mpr (reached place member)
    exact congrArg (fun text => Except.ok (some text)) same

/-- A sum that wraps around is negative, so that as a `size_t` it lies behind every string. -/
theorem wrapped_sum_lies_behind {sum : Int} (large : 2 ^ 31 ≤ sum) (bound : sum < 2 ^ 32) {p : Nat}
    (inside : p ≤ intMax) : p < asSize (Int32.ofInt sum) := by
  have most : intMax = 2147483647 := rfl
  have size : (Int32.size : Int) = 4294967296 := rfl
  rw [asSize, Int32.toInt_ofInt, Int.bmod, size]
  split <;> omega

/-- `substring('abc', 2)` -/
theorem substring_behind_first :
    Selects (fun _ => Int32.minValue) ⟨lit "abc", by decide⟩ (characters [97, 98, 99]) 2 none ↔
      ∀ place ∈ (characters [97, 98, 99]).zipIdx 1, Chosen 2 none place.2 →
        Reached (fun _ => Int32.minValue) 2 none place.1 place.2 :=
  substring_right_iff _ _ rfl 2 none nofun

/-- `substring('ab', -1)`: nothing is left. -/
theorem negative_start_loses_all :
    ¬ ∀ (elsewhere : Int → Int32) (string : CString) (ws : List Int16), utf2ws string = .ok ws →
      ∀ (start : Int32) (length : Option Int32), (∀ given ∈ length, 0 ≤ given.toInt) →
        Selects elsewhere string (characters ws) start length := by
  intro selects
  have selected := selects (fun _ => Int32.minValue) ⟨lit "ab", by decide⟩ [97, 98] rfl (-1) none nofun
  have run : xfSubstr (fun _ => Int32.minValue) (some ⟨lit "ab", by decide⟩) (-1) none =
      .ok (some []) := by rfl
  have nothing := Option.some.inj (Except.ok.inj (run.symm.trans selected))
  have first := List.flatMap_eq_nil_iff.mp nothing.symm (97, 1) List.mem_cons_self
  have chosen : Chosen (-1) none 1 := ⟨by decide, nofun⟩
  rw [if_pos chosen] at first
  cases first

end WideStrings
end TurboXSL
