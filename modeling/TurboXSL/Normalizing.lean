import TurboXSL.Library.Buffer
import TurboXSL.Output
import TurboXSL.Parse

namespace TurboXSL
namespace Normalizing

open Library Output

/-!
# Normalized white space

`xf_normalize` rewrites a string where it stands, with one cursor for reading
and one for writing.  Of each run of white space it copies the first byte,
whatever that is, and skips the rest; a run at the end is removed afterwards,
with an index that is an `int`.
-/

/-- `*p` is moved over white space; the turns of the loop are counted. -/
def skipWhite : Nat → Bytes → Nat → Option Nat
  | 0, _, _ => none
  | turns + 1, memory, p => do
      let c ← memory[p]?
      if xIsWs c then skipWhite turns memory (p + 1) else some p

/-- Where `p` is moved from the byte `c` that was copied. -/
def skipCopied (memory : Bytes) (p : Nat) (c : UInt8) : Option Nat :=
  if xIsWs c then skipWhite memory.length memory p else some (p + 1)

/-- The loop that copies the content: `p` reads and `s` writes. -/
def copyContent : Nat → Bytes → Nat → Nat → Option (Bytes × Nat)
  | 0, _, _, _ => none
  | turns + 1, memory, p, s => do
      let c ← memory[p]?
      if c = 0 then some (memory, s)
      else
        let memory ← Buffer.store memory s c
        let p ← skipCopied memory p (← memory[p]?)
        copyContent turns memory p (s + 1)

/-- The loop that removes white space in front of the index. -/
def stripWhite : Nat → Bytes → Option Bytes
  | 0, memory => some memory
  | i + 1, memory => do
      let c ← memory[i]?
      if xIsWs c then stripWhite i (← Buffer.store memory i 0) else some memory

/-- `strlen(s) - 1` as an `int`. -/
def lastIndex (length : Nat) : Int := Int.bmod (length - 1) (2 ^ 32)

/-- `xf_normalize`: the memory of the string afterwards. -/
def xfNormalize (string : CString) : Option Bytes := do
  let memory := string.bytes ++ [0]
  let p ← skipWhite memory.length memory 0
  let (memory, s) ← copyContent memory.length memory p 0
  let memory ← Buffer.store memory s 0
  stripWhite (lastIndex (untilNul memory).length + 1).toNat memory

/-- The runs of other characters, in order. -/
def wordsOf (s : Bytes) : List Bytes := (s.splitOnP xIsWs).filter fun word => word ≠ []

/-- The words with a space between them. -/
def spaced (s : Bytes) : Bytes := [' '.toUInt8].intercalate (wordsOf s)

example : (xfNormalize ⟨lit "  a \t b ", by decide⟩).map untilNul = some (lit "a b") := by decide

/-! ## The text without its buffer -/

/-- What is copied of a text, where `after` says whether white space stands in front of it. -/
def collapse (after : Bool) : Bytes → Bytes
  | [] => []
  | c :: s =>
      if xIsWs c then if after then collapse true s else c :: collapse true s
      else c :: collapse false s

/-- The same with a space for each run. -/
def respaced (after : Bool) : Bytes → Bytes
  | [] => []
  | c :: s =>
      if xIsWs c then if after then respaced true s else ' '.toUInt8 :: respaced true s
      else c :: respaced false s

/-- A text without the white space at its end. -/
def trimmed : Bytes → Bytes
  | [] => []
  | c :: s => if trimmed s = [] ∧ xIsWs c then [] else c :: trimmed s

theorem trimmed_cons_of_black {c : UInt8} (black : xIsWs c = false) (s : Bytes) :
    trimmed (c :: s) = c :: trimmed s := by
  rw [trimmed, if_neg]
  rw [black]
  exact fun both => Bool.false_ne_true both.2

theorem trimmed_cons_of_white {c : UInt8} (white : xIsWs c = true) (s : Bytes) :
    trimmed (c :: s) = if trimmed s = [] then [] else c :: trimmed s := by
  rw [trimmed, white]
  simp only [and_true]

/-- A space in front of what is not empty. -/
def apart (s : Bytes) : Bytes := if s = [] then [] else ' '.toUInt8 :: s

theorem intercalate_cons (word : Bytes) (words : List Bytes) (filled : ∀ w ∈ words, w ≠ []) :
    [' '.toUInt8].intercalate (word :: words) = word ++ apart ([' '.toUInt8].intercalate words) := by
  cases words with
  | nil =>
      rw [List.intercalate_singleton, List.intercalate_nil]
      exact (List.append_nil word).symm
  | cons next words =>
      have here := filled next List.mem_cons_self
      have some_ : [' '.toUInt8].intercalate (next :: words) ≠ [] := by
        cases words with
        | nil => rwa [List.intercalate_singleton]
        | cons last words =>
            rw [List.intercalate_cons_cons]
            exact fun nothing => here (List.append_eq_nil_iff.mp (List.append_eq_nil_iff.mp nothing).1).1
      rw [apart, if_neg some_, List.intercalate_cons_cons, List.append_assoc]
      rfl

/-- Pieces that are not empty. -/
def filled (pieces : List Bytes) : List Bytes := pieces.filter fun word => word ≠ []

theorem filled_cons (c : UInt8) (word : Bytes) (pieces : List Bytes) :
    filled ((c :: word) :: pieces) = (c :: word) :: filled pieces :=
  List.filter_cons_of_pos (by simp)

theorem mem_filled {pieces : List Bytes} : ∀ w ∈ filled pieces, w ≠ [] := fun _ member =>
  of_decide_eq_true (List.mem_filter.mp member).2

/-- A space for each run, without the one at the end, is what stands between the words. -/
theorem trimmed_respaced (s : Bytes) :
    trimmed (respaced true s) = [' '.toUInt8].intercalate (filled (s.splitOnP xIsWs)) ∧
      Exists fun word => Exists fun pieces => s.splitOnP xIsWs = word :: pieces ∧
        trimmed (respaced false s) = word ++ apart ([' '.toUInt8].intercalate (filled pieces)) := by
  induction s with
  | nil => exact ⟨rfl, [], [], rfl, rfl⟩
  | cons c s inductionHypothesis =>
      rcases inductionHypothesis with ⟨outside, word, pieces, split, inside⟩
      rw [List.splitOnP_cons_eq_if_modifyHead]
      cases white : xIsWs c with
      | true =>
          simp only [respaced, white, if_true, Bool.false_eq_true, if_false]
          refine ⟨outside, [], _, rfl, ?_⟩
          rw [trimmed_cons_of_white (by decide), outside]
          rfl
      | false =>
          simp only [respaced, white, Bool.false_eq_true, if_false, split, List.modifyHead_cons]
          rw [trimmed_cons_of_black white, inside]
          refine ⟨?_, _, _, rfl, rfl⟩
          rw [filled_cons, intercalate_cons _ _ mem_filled]
          rfl

/-- A byte other than white space follows. -/
def Continues (s : Bytes) : Prop := Exists fun d => d ∈ s ∧ xIsWs d = false

/-- White space at the start with a word behind it begins with a space. -/
def Leads (s : Bytes) : Prop :=
  ∀ c rest, s = c :: rest → xIsWs c = true → Continues rest → c = ' '.toUInt8

/-- The white space between two words begins with a space wherever it stands. -/
def Plain (s : Bytes) : Prop :=
  ∀ front b behind, s = front ++ b :: behind → xIsWs b = false → Leads behind

theorem plain_cons_iff (c : UInt8) (s : Bytes) :
    Plain (c :: s) ↔ (xIsWs c = false → Leads s) ∧ Plain s := by
  constructor
  · intro plain
    refine ⟨plain [] c s rfl, fun front b behind whole => ?_⟩
    exact plain (c :: front) b behind (congrArg (c :: ·) whole)
  · rintro ⟨here, later⟩ front b behind whole black
    cases front with
    | nil =>
        cases whole
        exact here black
    | cons _ front =>
        rw [List.cons_append] at whole
        cases whole
        exact later front b behind rfl black

theorem continues_iff (s : Bytes) : Continues s ↔ ¬ ∀ c ∈ s, xIsWs c = true := by
  simp only [Continues, not_forall, Bool.not_eq_true, exists_prop]

theorem trimmed_eq_nil_iff (s : Bytes) : trimmed s = [] ↔ ∀ c ∈ s, xIsWs c = true := by
  induction s with
  | nil => exact ⟨fun _ => nofun, fun _ => rfl⟩
  | cons c s inductionHypothesis =>
      rw [trimmed, List.forall_mem_cons, ← inductionHypothesis]
      split
      next both => exact ⟨fun _ => ⟨both.2, both.1⟩, fun _ => rfl⟩
      next neither => exact ⟨nofun, fun both => absurd ⟨both.2, both.1⟩ neither⟩

/-- What is copied is white where the text is. -/
theorem trimmed_collapse_eq_nil_iff (after : Bool) (s : Bytes) :
    (trimmed (collapse after s) = [] ↔ ¬ Continues s) ∧
      (trimmed (respaced after s) = [] ↔ ¬ Continues s) := by
  rw [trimmed_eq_nil_iff, trimmed_eq_nil_iff, continues_iff, not_not]
  induction s generalizing after with
  | nil => exact ⟨Iff.rfl, Iff.rfl⟩
  | cons c s inductionHypothesis =>
      rw [List.forall_mem_cons, collapse, respaced]
      cases white : xIsWs c with
      | true =>
          cases after with
          | true => simpa using inductionHypothesis true
          | false =>
              have blank : xIsWs ' '.toUInt8 = true := by decide
              simpa [white, blank] using inductionHypothesis true
      | false => simp [white]

/-- The two ways of copying give the same text iff the white space in front of
each further word begins with a space. -/
theorem trimmed_collapse_iff (s : Bytes) :
    (trimmed (collapse true s) = trimmed (respaced true s) ↔ Plain s) ∧
      (trimmed (collapse false s) = trimmed (respaced false s) ↔ Plain s ∧ Leads s) := by
  induction s with
  | nil =>
      have plain : Plain [] := fun front b behind whole => by simp at whole
      exact ⟨⟨fun _ => plain, fun _ => rfl⟩, ⟨fun _ => ⟨plain, nofun⟩, fun _ => rfl⟩⟩
  | cons c s inductionHypothesis =>
      rcases inductionHypothesis with ⟨outside, inside⟩
      rw [plain_cons_iff]
      cases white : xIsWs c with
      | true =>
          simp only [collapse, respaced, white, if_true, Bool.false_eq_true, if_false, reduceCtorEq,
            false_implies, true_and]
          refine ⟨outside, ?_⟩
          have leads : Leads (c :: s) ↔ (Continues s → c = ' '.toUInt8) := by
            constructor
            · exact fun all continues => all c s rfl white continues
            · rintro first _ _ ⟨⟩ -
              exact first
          rw [trimmed_cons_of_white white, trimmed_cons_of_white (by decide), leads, ← outside]
          rcases trimmed_collapse_eq_nil_iff true s with ⟨left, right⟩
          by_cases continues : Continues s
          · rw [if_neg (fun nothing => left.mp nothing continues),
              if_neg (fun nothing => right.mp nothing continues), List.cons.injEq]
            exact ⟨fun both => ⟨both.2, fun _ => both.1⟩, fun both => ⟨both.2 continues, both.1⟩⟩
          · rw [if_pos (left.mpr continues), if_pos (right.mpr continues), left.mpr continues,
              right.mpr continues]
            exact ⟨fun _ => ⟨rfl, fun later => absurd later continues⟩, fun _ => rfl⟩
      | false =>
          simp only [collapse, respaced, white, Bool.false_eq_true, if_false, true_implies]
          have leads : Leads (c :: s) := by
            rintro _ _ ⟨⟩ here
            rw [white] at here
            cases here
          rw [trimmed_cons_of_black white, trimmed_cons_of_black white, List.cons.injEq, inside]
          exact ⟨⟨fun both => ⟨both.2.2, both.2.1⟩, fun both => ⟨rfl, both.2, both.1⟩⟩,
            ⟨fun both => ⟨⟨both.2.2, both.2.1⟩, leads⟩, fun both => ⟨rfl, both.1.2, both.1.1⟩⟩⟩

/-! ## The loops -/

theorem getElem?_of_drop {memory rest : Bytes} {p : Nat} {c : UInt8}
    (unread : memory.drop p = c :: rest) : memory[p]? = some c := by
  rw [← Nat.add_zero p, ← List.getElem?_drop, unread]
  rfl

theorem drop_succ {memory rest : Bytes} {p : Nat} {c : UInt8}
    (unread : memory.drop p = c :: rest) : memory.drop (p + 1) = rest := by
  rw [← List.drop_drop, unread]
  rfl

theorem skipWhite_eq {memory white rest : Bytes} {p : Nat} {stop : UInt8}
    (unread : memory.drop p = white ++ stop :: rest) (all : ∀ c ∈ white, xIsWs c = true)
    (black : xIsWs stop = false) {turns : Nat} (enough : white.length < turns) :
    skipWhite turns memory p = some (p + white.length) := by
  induction white generalizing p turns with
  | nil =>
      cases turns with
      | zero => cases enough
      | succ turns =>
          simp only [skipWhite, getElem?_of_drop unread, Option.bind_eq_bind, Option.bind_some, black,
            Bool.false_eq_true, if_false, List.length_nil, Nat.add_zero]
  | cons c white inductionHypothesis =>
      cases turns with
      | zero => cases enough
      | succ turns =>
          rcases List.forall_mem_cons.mp all with ⟨here, later⟩
          have step := inductionHypothesis (drop_succ unread) later
            (Nat.lt_of_succ_lt_succ enough)
          simp only [skipWhite, getElem?_of_drop unread, Option.bind_eq_bind, Option.bind_some, here,
            if_true, step, List.length_cons]
          congr 1
          omega

/-- White space ends before the terminator. -/
theorem black_behind (rest : Bytes) :
    Exists fun stop => Exists fun more =>
      rest.dropWhile xIsWs ++ [0] = stop :: more ∧ xIsWs stop = false := by
  cases left : rest.dropWhile xIsWs with
  | nil => exact ⟨0, [], rfl, by decide⟩
  | cons stop more =>
      have black := List.head?_dropWhile_not xIsWs rest
      rw [left] at black
      exact ⟨stop, more ++ [0], rfl, black⟩

theorem collapse_true (s : Bytes) : collapse true s = collapse false (s.dropWhile xIsWs) := by
  induction s with
  | nil => rfl
  | cons c s inductionHypothesis =>
      rw [collapse, List.dropWhile_cons]
      cases white : xIsWs c with
      | true => simpa using inductionHypothesis
      | false => simp [collapse, white]

/-- A byte stored in front of what is to be read, or over the same byte. -/
theorem drop_store {memory rest : Bytes} {p s : Nat} {c : UInt8}
    (unread : memory.drop p = c :: rest) (behind : s ≤ p) : (memory.set s c).drop p = c :: rest := by
  rcases Nat.lt_or_eq_of_le behind with before | rfl
  · rw [List.drop_set_of_lt before, unread]
  · have inside := (List.getElem?_eq_some_iff.mp (getElem?_of_drop unread)).1
    rw [List.drop_set, if_neg (Nat.lt_irrefl _), unread, Nat.sub_self]
    rfl

theorem store_prefix {memory written : Bytes} (front : written <+: memory)
    (inside : written.length < memory.length) (c : UInt8) :
    written ++ [c] <+: memory.set written.length c := by
  rcases front with ⟨more, rfl⟩
  rw [List.length_append] at inside
  cases more with
  | nil => exact absurd inside (by simp)
  | cons d more =>
      refine ⟨more, ?_⟩
      rw [List.set_append_right _ _ (Nat.le_refl _), Nat.sub_self, List.append_assoc]
      rfl

/-- The loop leaves the collapsed text behind what was written, and the memory
as long as it was. -/
theorem copyContent_eq {memory written rest : Bytes} (noNul : 0 ∉ rest) {p : Nat}
    (front : written <+: memory) (behind : written.length ≤ p) (unread : memory.drop p = rest ++ [0])
    {turns : Nat} (enough : rest.length < turns) :
    Exists fun after => copyContent turns memory p written.length =
        some (after, written.length + (collapse false rest).length) ∧
      after.length = memory.length ∧ written ++ collapse false rest <+: after ∧
      written.length + (collapse false rest).length < memory.length := by
  induction turns generalizing memory written rest p with
  | zero => cases enough
  | succ turns inductionHypothesis =>
      cases rest with
      | nil =>
          have here := getElem?_of_drop unread
          have inside := (List.getElem?_eq_some_iff.mp here).1
          refine ⟨memory, ?_, rfl, ?_, ?_⟩
          · simp only [copyContent, here, Option.bind_eq_bind, Option.bind_some, if_true]
            rfl
          · rwa [collapse, List.append_nil]
          · exact Nat.lt_of_le_of_lt behind inside
      | cons c rest =>
          rw [List.mem_cons, not_or] at noNul
          have here := getElem?_of_drop unread
          have inside := (List.getElem?_eq_some_iff.mp here).1
          have room : written.length < memory.length := Nat.lt_of_le_of_lt behind inside
          have stored := drop_store unread behind
          have length := congrArg List.length unread
          rw [List.length_drop, List.length_append, List.length_cons, List.length_singleton] at length
          have next := store_prefix front room c
          have longer : (written ++ [c]).length = written.length + 1 := List.length_append
          have size : (memory.set written.length c).length = memory.length := List.length_set
          have turn : ∀ {q : Nat} {more : Bytes}, 0 ∉ more → written.length + 1 ≤ q →
              (memory.set written.length c).drop q = more ++ [0] → more.length < turns →
              skipCopied (memory.set written.length c) p c = some q →
              collapse false (c :: rest) = c :: collapse false more →
              Exists fun after => copyContent (turns + 1) memory p written.length =
                  some (after, written.length + (collapse false (c :: rest)).length) ∧
                after.length = memory.length ∧ written ++ collapse false (c :: rest) <+: after ∧
                written.length + (collapse false (c :: rest)).length < memory.length := by
            intro q more clean ahead left fewer moved same
            rcases inductionHypothesis clean next (by omega) left fewer with
              ⟨after, done, sameLength, held, bound⟩
            rw [longer] at done bound
            rw [size] at sameLength bound
            rw [same, List.length_cons]
            refine ⟨after, ?_, sameLength, ?_, by omega⟩
            · simp only [copyContent, here, Option.bind_eq_bind, Option.bind_some, if_neg (Ne.symm noNul.1),
                Buffer.store_eq_some room, getElem?_of_drop stored, moved, done]
              congr 2
              omega
            · rwa [List.append_assoc, List.singleton_append] at held
          cases white : xIsWs c with
          | true =>
              have split : rest = rest.takeWhile xIsWs ++ rest.dropWhile xIsWs :=
                List.takeWhile_append_dropWhile.symm
              have clean : 0 ∉ rest.dropWhile xIsWs := fun member =>
                noNul.2 ((List.dropWhile_sublist xIsWs).mem member)
              rcases black_behind rest with ⟨stop, more, left, black⟩
              have run : (memory.set written.length c).drop p =
                  (c :: rest.takeWhile xIsWs) ++ stop :: more := by
                rw [stored, ← left]
                show c :: (rest ++ [0]) = c :: (rest.takeWhile xIsWs ++ (rest.dropWhile xIsWs ++ [0]))
                rw [← List.append_assoc, ← split]
              have all : ∀ d ∈ c :: rest.takeWhile xIsWs, xIsWs d = true :=
                List.forall_mem_cons.mpr ⟨white, fun d member => List.mem_takeWhile_imp member⟩
              have shorter := congrArg List.length split
              rw [List.length_append] at shorter
              have count : (c :: rest.takeWhile xIsWs).length = (rest.takeWhile xIsWs).length + 1 := rfl
              refine turn (q := p + (c :: rest.takeWhile xIsWs).length) clean (by omega) ?_ ?_ ?_ ?_
              · rw [← List.drop_drop, run, List.drop_left, left]
              · rw [List.length_cons] at enough
                omega
              · rw [skipCopied, if_pos white]
                apply skipWhite_eq run all black
                rw [List.length_cons, size]
                omega
              · rw [collapse, white, if_pos rfl, if_neg Bool.false_ne_true, collapse_true]
          | false =>
              refine turn noNul.2 (by omega) (drop_succ stored) (Nat.lt_of_succ_lt_succ enough) ?_ ?_
              · rw [skipCopied, white]
                rfl
              · rw [collapse, white]
                rfl

theorem trimmed_concat (s : Bytes) (c : UInt8) :
    trimmed (s ++ [c]) = if xIsWs c then trimmed s else s ++ [c] := by
  induction s with
  | nil =>
      cases white : xIsWs c <;> simp [trimmed, white]
  | cons d s inductionHypothesis =>
      rw [List.cons_append, trimmed, inductionHypothesis]
      cases xIsWs c with
      | true => rfl
      | false => exact if_neg fun both => absurd both.1 (by simp)

/-- What is behind the index stays, and so does the length. -/
theorem stripWhite_frame {memory : Bytes} {count : Nat} (inside : count ≤ memory.length) :
    Exists fun after => stripWhite count memory = some after ∧ after.length = memory.length ∧
      ∀ i, count ≤ i → after[i]? = memory[i]? := by
  induction count generalizing memory with
  | zero => exact ⟨memory, rfl, rfl, fun _ _ => rfl⟩
  | succ count inductionHypothesis =>
      rw [stripWhite, List.getElem?_eq_getElem inside]
      simp only [Option.bind_eq_bind, Option.bind_some]
      split
      next white =>
        rw [Buffer.store_eq_some inside]
        have shorter : count ≤ (memory.set count 0).length := by
          rw [List.length_set]
          exact Nat.le_of_lt inside
        rcases inductionHypothesis shorter with ⟨after, done, length, kept⟩
        refine ⟨after, done, length.trans List.length_set, fun i behind => ?_⟩
        rw [kept i (Nat.le_of_succ_le behind), List.getElem?_set_ne (Nat.ne_of_lt behind)]
      next black => exact ⟨memory, rfl, rfl, fun _ _ => rfl⟩

theorem untilNul_append {t : Bytes} (noNul : 0 ∉ t) (more : Bytes) : untilNul (t ++ 0 :: more) = t := by
  rw [untilNul, List.takeWhile_append_of_pos, List.takeWhile_cons_of_neg (by simp), List.append_nil]
  intro c member
  exact decide_eq_true fun zero => noNul (zero ▸ member)

theorem untilNul_length_le {memory : Bytes} {i : Nat} (here : memory[i]? = some 0) :
    (untilNul memory).length ≤ i := by
  by_contra beyond
  have inside := Nat.lt_of_not_le beyond
  have held : untilNul memory <+: memory := List.takeWhile_prefix _
  have same := List.prefix_iff_getElem?.mp held i inside
  rw [here] at same
  have member := List.getElem_mem inside
  rw [← Option.some.inj same] at member
  exact absurd (List.mem_takeWhile_imp member) (by decide)

/-- From the end of the text on, all white space at the end is removed. -/
theorem stripWhite_whole {t : Bytes} (noNul : 0 ∉ t) (more : Bytes) :
    (stripWhite t.length (t ++ 0 :: more)).map untilNul = some (trimmed t) := by
  induction t using List.reverseRecOn generalizing more with
  | nil => rfl
  | append_singleton t c inductionHypothesis =>
      have front : 0 ∉ t := fun member => noNul (List.mem_append_left [c] member)
      have here : (t ++ [c] ++ 0 :: more)[t.length]? = some c := by
        rw [List.append_assoc, List.getElem?_append_right (Nat.le_refl _), Nat.sub_self]
        rfl
      have inside := (List.getElem?_eq_some_iff.mp here).1
      rw [List.length_append, List.length_singleton, stripWhite, here, trimmed_concat]
      simp only [Option.bind_eq_bind, Option.bind_some]
      cases white : xIsWs c with
      | true =>
          rw [if_pos rfl, if_pos rfl, Buffer.store_eq_some inside, List.append_assoc,
            List.set_append_right _ _ (Nat.le_refl _), Nat.sub_self]
          exact inductionHypothesis front (0 :: more)
      | false =>
          rw [if_neg Bool.false_ne_true, if_neg Bool.false_ne_true, Option.map_some,
            untilNul_append noNul]

/-! ## The function -/

theorem zero_not_mem_collapse {s : Bytes} (noNul : 0 ∉ s) (after : Bool) : 0 ∉ collapse after s := by
  induction s generalizing after with
  | nil => exact noNul
  | cons c s inductionHypothesis =>
      rw [List.mem_cons, not_or] at noNul
      rw [collapse]
      split
      · split
        · exact inductionHypothesis noNul.2 true
        · exact fun member => (List.mem_cons.mp member).elim noNul.1 (inductionHypothesis noNul.2 true)
      · exact fun member => (List.mem_cons.mp member).elim noNul.1 (inductionHypothesis noNul.2 false)

/-- Behind the collapsed text the last loop starts. -/
theorem xfNormalize_eq (string : CString) :
    Exists fun more => (collapse true string.bytes ++ 0 :: more).length = string.bytes.length + 1 ∧
      xfNormalize string = stripWhite (lastIndex (collapse true string.bytes).length + 1).toNat
        (collapse true string.bytes ++ 0 :: more) := by
  have split : string.bytes = string.bytes.takeWhile xIsWs ++ string.bytes.dropWhile xIsWs :=
    List.takeWhile_append_dropWhile.symm
  have size : (string.bytes ++ [0]).length = string.bytes.length + 1 := List.length_append
  have shorter := congrArg List.length split
  rw [List.length_append] at shorter
  rcases black_behind string.bytes with ⟨stop, more, left, black⟩
  have unread : (string.bytes ++ [0]).drop 0 = string.bytes.takeWhile xIsWs ++ stop :: more := by
    rw [List.drop_zero, ← left, ← List.append_assoc, ← split]
  have white : (string.bytes.takeWhile xIsWs).length < (string.bytes ++ [0]).length := by omega
  have skipped := skipWhite_eq unread (fun d member => List.mem_takeWhile_imp member) black white
  rw [Nat.zero_add] at skipped
  have behind : (string.bytes ++ [0]).drop (string.bytes.takeWhile xIsWs).length =
      string.bytes.dropWhile xIsWs ++ [0] := by
    rw [List.drop_zero] at unread
    rw [unread, List.drop_left, left]
  have clean : 0 ∉ string.bytes.dropWhile xIsWs := fun member =>
    string.noNul ((List.dropWhile_sublist xIsWs).mem member)
  have content : (string.bytes.dropWhile xIsWs).length < (string.bytes ++ [0]).length := by omega
  rcases copyContent_eq clean (List.nil_prefix (l := string.bytes ++ [0])) (Nat.zero_le _) behind
    content with ⟨after, done, length, held, inside⟩
  rw [← collapse_true, List.length_nil, Nat.zero_add] at done inside
  rw [← collapse_true, List.nil_append] at held
  rw [← length] at inside
  rcases store_prefix held inside 0 with ⟨rest, whole⟩
  rw [List.append_assoc, List.singleton_append] at whole
  refine ⟨rest, ?_, ?_⟩
  · rw [whole, List.length_set, length, size]
  · simp only [xfNormalize, skipped, Option.bind_eq_bind, Option.bind_some, done, Buffer.store_eq_some inside, ← whole, untilNul_append (zero_not_mem_collapse string.noNul true)]

theorem trimmed_front (s : Bytes) : trimmed s <+: s := by
  induction s with
  | nil => exact List.prefix_refl _
  | cons c s inductionHypothesis =>
      rw [trimmed]
      split
      · exact List.nil_prefix
      · exact List.cons_prefix_cons.mpr ⟨rfl, inductionHypothesis⟩

/-- Of a collapsed text no more than one byte is removed. -/
theorem collapse_length_le (s : Bytes) :
    (trimmed (collapse true s) = [] → collapse true s = []) ∧
      ∀ after, (collapse after s).length ≤ (trimmed (collapse after s)).length + 1 := by
  induction s with
  | nil => exact ⟨fun _ => rfl, fun _ => Nat.zero_le _⟩
  | cons c s inductionHypothesis =>
      rcases inductionHypothesis with ⟨empty, bound⟩
      cases white : xIsWs c with
      | true =>
          simp only [collapse, white, if_true]
          refine ⟨empty, fun after => ?_⟩
          cases after with
          | true => exact bound true
          | false =>
              simp only [Bool.false_eq_true, if_false]
              rw [trimmed_cons_of_white white]
              split
              next nothing => rw [empty nothing]; exact Nat.le_refl _
              next filled => exact Nat.succ_le_succ (bound true)
      | false =>
          simp only [collapse, white, Bool.false_eq_true, if_false]
          rw [trimmed_cons_of_black white]
          exact ⟨nofun, fun _ => Nat.succ_le_succ (bound false)⟩

/-- Both ways of copying leave texts of one length. -/
theorem trimmed_length_eq (s : Bytes) (after : Bool) :
    (trimmed (collapse after s)).length = (trimmed (respaced after s)).length := by
  induction s generalizing after with
  | nil => rfl
  | cons c s inductionHypothesis =>
      cases white : xIsWs c with
      | true =>
          cases after with
          | true => simpa [collapse, respaced, white] using inductionHypothesis true
          | false =>
              simp only [collapse, respaced, white, if_true, Bool.false_eq_true, if_false]
              rw [trimmed_cons_of_white white, trimmed_cons_of_white (by decide)]
              rcases trimmed_collapse_eq_nil_iff true s with ⟨left, right⟩
              by_cases continues : Continues s
              · rw [if_neg (fun nothing => left.mp nothing continues),
                  if_neg (fun nothing => right.mp nothing continues), List.length_cons,
                  List.length_cons, inductionHypothesis]
              · rw [if_pos (left.mpr continues), if_pos (right.mpr continues)]
      | false =>
          simp only [collapse, respaced, white, Bool.false_eq_true, if_false]
          rw [trimmed_cons_of_black white, trimmed_cons_of_black white, List.length_cons,
            List.length_cons, inductionHypothesis]

/-- What is spaced and trimmed is not changed again. -/
theorem collapse_respaced (s : Bytes) (after : Bool) :
    collapse after (trimmed (respaced after s)) = trimmed (respaced after s) := by
  induction s generalizing after with
  | nil => rfl
  | cons c s inductionHypothesis =>
      cases white : xIsWs c with
      | true =>
          cases after with
          | true => simpa [respaced, white] using inductionHypothesis true
          | false =>
              have blank : xIsWs ' '.toUInt8 = true := by decide
              simp only [respaced, white, if_true, Bool.false_eq_true, if_false]
              rw [trimmed_cons_of_white blank]
              split
              · rfl
              · rw [collapse, blank, if_pos rfl, if_neg Bool.false_ne_true, inductionHypothesis]
      | false =>
          simp only [respaced, white, Bool.false_eq_true, if_false]
          rw [trimmed_cons_of_black white, collapse, white, if_neg Bool.false_ne_true,
            inductionHypothesis]

theorem trimmed_trimmed (s : Bytes) : trimmed (trimmed s) = trimmed s := by
  induction s with
  | nil => rfl
  | cons c s inductionHypothesis =>
      rw [trimmed]
      split
      · rfl
      next neither => rw [trimmed, inductionHypothesis, if_neg neither]

/-- The index the removal begins with meets the end of a text, or nothing that
is removed where nothing is to be removed. -/
def EndsRight (t : Bytes) : Prop :=
  t.length ≤ 2 ^ 31 ∨
    trimmed t = t ∧ ∀ i : Nat, lastIndex t.length = i → ∀ c, t[i]? = some c → xIsWs c = false

/-- What is left of a collapsed text. -/
theorem stripWhite_collapse {t : Bytes} (noNul : 0 ∉ t) (bound : t.length ≤ (trimmed t).length + 1)
    (more : Bytes) :
    Exists fun after => stripWhite (lastIndex t.length + 1).toNat (t ++ 0 :: more) = some after ∧
      after.length = (t ++ 0 :: more).length ∧
      (EndsRight t → untilNul after = trimmed t) ∧
      (¬ EndsRight t → untilNul after = t ∧ trimmed t ≠ t ∨
        (untilNul after).length < (trimmed t).length) := by
  have size : (t ++ 0 :: more).length = t.length + (more.length + 1) := List.length_append
  have index : lastIndex t.length = Int.bmod ((t.length : Int) - 1) (2 ^ 32) := rfl
  rw [Int.bmod] at index
  by_cases short : t.length ≤ 2 ^ 31
  · have count : (lastIndex t.length + 1).toNat = t.length := by
      rw [index]
      split <;> omega
    rw [count]
    have inside : t.length ≤ (t ++ 0 :: more).length := by omega
    rcases stripWhite_frame inside with ⟨after, done, length, -⟩
    have whole := stripWhite_whole noNul more
    rw [done] at whole
    exact ⟨after, done, length, fun _ => Option.some.inj whole, fun wrong => absurd (.inl short) wrong⟩
  · have early : lastIndex t.length + 1 < t.length := by
      rw [index]
      split <;> omega
    have within : (lastIndex t.length + 1).toNat ≤ (t ++ 0 :: more).length := by omega
    rcases stripWhite_frame within with ⟨after, done, length, kept⟩
    refine ⟨after, done, length, ?_⟩
    cases count : (lastIndex t.length + 1).toNat with
    | zero =>
        rw [count] at done
        cases done
        rw [untilNul_append noNul]
        refine ⟨fun right => ?_, fun wrong => .inl ⟨rfl, fun same => wrong (.inr ⟨same, ?_⟩)⟩⟩
        · exact (right.resolve_left short).1.symm
        · intro i here
          omega
    | succ i =>
        have here : lastIndex t.length = i := by omega
        have inside : i < t.length := by omega
        have byte : (t ++ 0 :: more)[i]? = some t[i] := by
          rw [List.getElem?_append_left inside, List.getElem?_eq_getElem inside]
        have room : i < (t ++ 0 :: more).length := by omega
        rw [count, stripWhite, byte] at done
        simp only [Option.bind_eq_bind, Option.bind_some] at done
        cases white : xIsWs t[i] with
        | false =>
            rw [white, if_neg Bool.false_ne_true] at done
            cases done
            rw [untilNul_append noNul]
            refine ⟨fun right => (right.resolve_left short).1.symm,
              fun wrong => .inl ⟨rfl, fun same => wrong (.inr ⟨same, ?_⟩)⟩⟩
            intro j there c byte'
            obtain rfl : i = j := by omega
            rw [List.getElem?_eq_getElem inside] at byte'
            rw [← Option.some.inj byte', white]
        | true =>
            rw [white, if_pos rfl, Buffer.store_eq_some room] at done
            have before : i ≤ ((t ++ 0 :: more).set i 0).length := by
              rw [List.length_set]
              omega
            rcases stripWhite_frame before with ⟨after', done', -, kept'⟩
            cases done'.symm.trans done
            have cut := untilNul_length_le ((kept' i (Nat.le_refl i)).trans
              (List.getElem?_set_self room))
            refine ⟨fun right => ?_, fun _ => .inr (by omega)⟩
            have wrong := (right.resolve_left short).2 i here _ (List.getElem?_eq_getElem inside)
            rw [white] at wrong
            cases wrong

/-- What the function makes of a string. -/
def normalized (string : CString) : Option Bytes := (xfNormalize string).map untilNul

/-- Within its own memory the string becomes its words with one space between
them, and what it becomes is not changed again. -/
def Normalizes (string : CString) : Prop :=
  (Exists fun memory => xfNormalize string = some memory ∧
    memory.length = string.bytes.length + 1 ∧ untilNul memory = spaced string.bytes) ∧
  ∀ again : CString, normalized string = some again.bytes → normalized again = some again.bytes

theorem spaced_eq (s : Bytes) : spaced s = trimmed (respaced true s) := (trimmed_respaced s).1.symm

/-- `normalize-space` joins the words with one space and does not change the
result again, iff the white space between two words begins with a space and
the index of the last byte fits in an `int`, or is not needed; then strings of
the same words give the same. -/
theorem normalize_right_iff (string : CString) :
    (Normalizes string ↔ Plain string.bytes ∧ EndsRight (collapse true string.bytes)) ∧
      ∀ other : CString, Normalizes string → Normalizes other →
        wordsOf other.bytes = wordsOf string.bytes → normalized other = normalized string := by
  rcases xfNormalize_eq string with ⟨more, size, run⟩
  have bound := (collapse_length_le string.bytes).2 true
  have lengths := trimmed_length_eq string.bytes true
  have exactly := (trimmed_collapse_iff string.bytes).1
  rw [← spaced_eq] at lengths exactly
  rcases stripWhite_collapse (zero_not_mem_collapse string.noNul true) bound more with
    ⟨after, done, length, right, wrong⟩
  rw [← run] at done
  constructor
  · constructor
    · rintro ⟨⟨memory, done', -, words⟩, -⟩
      cases done.symm.trans done'
      by_cases ends : EndsRight (collapse true string.bytes)
      · exact ⟨exactly.mp ((right ends).symm.trans words), ends⟩
      · exfalso
        rcases wrong ends with ⟨same, differs⟩ | shorter
        · apply differs
          apply (trimmed_front _).eq_of_length
          rw [lengths, ← words, same]
        · rw [words, lengths] at shorter
          exact Nat.lt_irrefl _ shorter
    · rintro ⟨plain, ends⟩
      have words := (right ends).trans (exactly.mpr plain)
      refine ⟨⟨after, done, length.trans size, words⟩, fun again became => ?_⟩
      rw [normalized, done, Option.map_some, words] at became
      have text := Option.some.inj became
      have same : collapse true again.bytes = again.bytes := by
        rw [← text, spaced_eq, collapse_respaced]
      have trim : trimmed again.bytes = again.bytes := by
        rw [← text, spaced_eq, trimmed_trimmed]
      have ends' : EndsRight (collapse true again.bytes) := by
        rw [same, ← text]
        rcases ends with short | ⟨whole, index⟩
        · refine .inl (Nat.le_trans ?_ short)
          rw [← lengths]
          exact (trimmed_front _).length_le
        · rw [← exactly.mpr plain, whole]
          exact .inr ⟨whole, index⟩
      rcases xfNormalize_eq again with ⟨more', -, run'⟩
      rcases stripWhite_collapse (zero_not_mem_collapse again.noNul true)
        ((collapse_length_le again.bytes).2 true) more' with ⟨after', done', -, right', -⟩
      rw [normalized, run', done', Option.map_some, right' ends', same, trim]
  · rintro other ⟨⟨memory, done, -, right⟩, -⟩ ⟨⟨memory', done', -, right'⟩, -⟩ same
    rw [normalized, normalized, done, done', Option.map_some, Option.map_some, right, right', spaced,
      spaced, same]

/-- `normalize-space` of two words with a tab between them. -/
theorem tab_is_kept : ¬ ∀ string : CString, Normalizes string := by
  intro normalizes
  rcases normalizes ⟨lit "a\tb", by decide⟩ with ⟨⟨memory, done, -, words⟩, -⟩
  have run : xfNormalize ⟨lit "a\tb", by decide⟩ = some (lit "a\tb" ++ [0]) := by rfl
  cases run.symm.trans done
  exact absurd words (by decide)

end Normalizing
end TurboXSL
