import TurboXSL.ParseStep

namespace TurboXSL
namespace Parse

open Library

/-!
# Where the parser reads

Most scanning loops of `do_parse` look for a delimiter and not for the NUL.
Whether such a loop stays inside the document is decided by the bytes that
remain when the loop is entered.  `Overruns` names these situations state by
state; the results say that a pass leaves the document exactly in them, and
so that a run does exactly when it meets one.

The last three bytes of a document matter too: the message about an unknown
entity prints the three bytes behind the ampersand.
-/

/-! ## Character references -/

/-- An unknown reference so close to the end of the document that its message
reads behind it.  `stop` is the number of bytes behind the decoded range. -/
def CutReference (p : Bytes) (stop : Nat) : Prop :=
  Exists fun before => Exists fun rest => p = before ++ '&'.toUInt8 :: rest ∧
    stop ≤ rest.length ∧ rest.length < 2 ∧ byteAt rest ≠ '#'.toUInt8

theorem matchAt_eq_some {str p rest : Bytes} (plain : ' '.toUInt8 ∉ str) (nonzero : 0 ∉ str)
    (found : matchAt str p = some rest) : p = str ++ rest := by
  induction str generalizing p with
  | nil => exact Option.some.inj found
  | cons want str inductionHypothesis =>
      have wantPlain : want ≠ ' '.toUInt8 := fun same => plain (same ▸ List.mem_cons_self)
      have wantNonzero : want ≠ 0 := fun same => nonzero (same ▸ List.mem_cons_self)
      simp only [matchAt, wantPlain, false_and, not_false_eq_true, and_true] at found
      split at found
      · cases found
      · rename_i same
        have here : byteAt p = want := not_not.mp same
        have tail := inductionHypothesis (fun member => plain (List.mem_cons_of_mem want member))
          (fun member => nonzero (List.mem_cons_of_mem want member)) found
        cases p with
        | nil => exact absurd here.symm wantNonzero
        | cons c p => rw [List.cons_append, ← tail, ← here]; rfl

/-- A named reference eats one of the five names. -/
theorem namedEntity_eq_some {s rest : Bytes} {u : Nat} (found : namedEntity s = some (u, rest)) :
    Exists fun name => name ∈ [lit "amp;", lit "quot;", lit "lt;", lit "gt;", lit "apos;"] ∧
      s = name ++ rest := by
  have eaten : ∀ {name : Bytes} {v : Nat}, ' '.toUInt8 ∉ name → 0 ∉ name →
      (matchAt name s).map (fun rest => (v, rest)) = some (u, rest) → s = name ++ rest := by
    intro name v plain nonzero mapped
    rcases Option.map_eq_some_iff.mp mapped with ⟨_, matched, same⟩
    rw [(Prod.mk.inj same).2] at matched
    exact matchAt_eq_some plain nonzero matched
  simp only [namedEntity, Option.orElse_eq_orElse, Option.orElse_eq_or, Option.or_eq_some_iff]
    at found
  rcases found with first | ⟨-, second | ⟨-, third | ⟨-, fourth | ⟨-, fifth⟩⟩⟩⟩
  · exact ⟨_, by simp, eaten (by decide) (by decide) first⟩
  · exact ⟨_, by simp, eaten (by decide) (by decide) second⟩
  · exact ⟨_, by simp, eaten (by decide) (by decide) third⟩
  · exact ⟨_, by simp, eaten (by decide) (by decide) fourth⟩
  · exact ⟨_, by simp, eaten (by decide) (by decide) fifth⟩

/-- The bytes a numeric reference can be made of. -/
def isNumericByte (c : UInt8) : Bool :=
  isSpace c || digitValue c < 16 || c = '#'.toUInt8 || c = '-'.toUInt8 || c = '+'.toUInt8 ||
    c = 'x'.toUInt8 || c = 'X'.toUInt8 || c = ';'.toUInt8

/-- `after` is `before` with some numeric bytes taken off. -/
def EatsNumeric (before after : Bytes) : Prop :=
  Exists fun eaten => before = eaten ++ after ∧ ∀ c ∈ eaten, isNumericByte c = true

theorem EatsNumeric.refl (p : Bytes) : EatsNumeric p p :=
  ⟨[], rfl, fun _ member => by cases member⟩

theorem EatsNumeric.trans {first second third : Bytes} (left : EatsNumeric first second)
    (right : EatsNumeric second third) : EatsNumeric first third := by
  rcases left with ⟨eaten, rfl, numeric⟩
  rcases right with ⟨later, rfl, numericLater⟩
  refine ⟨eaten ++ later, (List.append_assoc eaten later third).symm, fun c member => ?_⟩
  exact (List.mem_append.mp member).elim (numeric c) (numericLater c)

theorem EatsNumeric.tail {p : Bytes} {c : UInt8} (here : byteAt p = c)
    (numeric : isNumericByte c = true) : EatsNumeric p p.tail := by
  cases p with
  | nil => exact .refl []
  | cons head rest =>
      refine ⟨[head], rfl, fun c member => ?_⟩
      rw [List.mem_singleton.mp member, show head = _ from here]
      exact numeric

theorem EatsNumeric.dropWhile {p : Bytes} {keep : UInt8 → Bool}
    (numeric : ∀ c, keep c = true → isNumericByte c = true) :
    EatsNumeric p (p.dropWhile keep) :=
  ⟨p.takeWhile keep, List.takeWhile_append_dropWhile.symm,
    fun c member => numeric c (List.mem_takeWhile_imp member)⟩

theorem strtoul_eats (p : Bytes) {base : Nat} (small : base ≤ 16) :
    EatsNumeric p (strtoul p base).2 := by
  have spaces : EatsNumeric p (p.dropWhile isSpace) :=
    .dropWhile fun c space => by simp only [isNumericByte, space, Bool.true_or]
  have sign : ∀ q, EatsNumeric q
      (if byteAt q = '-'.toUInt8 ∨ byteAt q = '+'.toUInt8 then q.tail else q) := by
    intro q
    split
    · rename_i signed
      exact signed.elim (fun same => .tail same (by decide)) fun same => .tail same (by decide)
    · exact .refl q
  have digits : ∀ q, EatsNumeric q (digitsAt base q).2 := by
    intro q
    simp only [digitsAt, List.span_eq_takeWhile_dropWhile]
    refine .dropWhile fun c digit => ?_
    have : digitValue c < 16 := Nat.lt_of_lt_of_le (of_decide_eq_true digit) small
    simp only [isNumericByte, this, decide_true, Bool.or_true, Bool.true_or]
  have number := spaces.trans (sign _)
  simp only [strtoul]
  generalize (if byteAt (p.dropWhile isSpace) = '-'.toUInt8 ∨
    byteAt (p.dropWhile isSpace) = '+'.toUInt8 then (p.dropWhile isSpace).tail
    else p.dropWhile isSpace) = q at number
  by_cases marked : base = 16 ∧ byteAt q = '0'.toUInt8 ∧
      (byteAt q.tail = 'x'.toUInt8 ∨ byteAt q.tail = 'X'.toUInt8)
  · have zero := number.trans (.tail marked.2.1 (by decide))
    have mark : EatsNumeric q.tail q.tail.tail :=
      marked.2.2.elim (fun same => .tail same (by decide)) fun same => .tail same (by decide)
    simp only [if_pos marked]
    split
    · exact zero
    · exact (zero.trans mark).trans (digits _)
  · simp only [if_neg marked]
    split
    · exact .refl p
    · exact number.trans (digits _)

theorem numericEntity_eats (s : Bytes) : EatsNumeric s (numericEntity s).2 := by
  generalize digits : (if byteAt s = 'x'.toUInt8 ∨ byteAt s = 'X'.toUInt8
    then strtoul s.tail 16 else strtoul s 10) = found
  have eats : EatsNumeric s found.2 := by
    rw [← digits]
    split
    · rename_i mark
      have eaten : EatsNumeric s s.tail :=
        mark.elim (fun same => .tail same (by decide)) fun same => .tail same (by decide)
      exact eaten.trans (strtoul_eats s.tail (Nat.le_refl 16))
    · exact strtoul_eats s (by decide)
  simp only [numericEntity, digits]
  split
  · rename_i semicolon
    exact eats.trans (.tail semicolon (by decide))
  · exact eats

/-- What decoding one reference eats contains no ampersand. -/
theorem decodeEntity_eats {s out rest : Bytes} (decoded : decodeEntity s = .ok (out, rest)) :
    Exists fun eaten => s = eaten ++ rest ∧ '&'.toUInt8 ∉ eaten := by
  simp only [decodeEntity] at decoded
  split at decoded
  · rename_i mark
    have same := (Prod.mk.inj (Except.ok.inj decoded)).2
    have eats : EatsNumeric s rest :=
      same ▸ (EatsNumeric.tail mark (by decide)).trans (numericEntity_eats s.tail)
    rcases eats with ⟨eaten, split, numeric⟩
    exact ⟨eaten, split, fun member => absurd (numeric _ member) (by decide)⟩
  · split at decoded
    · rename_i named
      rcases namedEntity_eq_some named with ⟨name, listed, split⟩
      have plain : ∀ name ∈ [lit "amp;", lit "quot;", lit "lt;", lit "gt;", lit "apos;"],
          '&'.toUInt8 ∉ name := by decide
      exact ⟨name, by rw [split, (Prod.mk.inj (Except.ok.inj decoded)).2], plain name listed⟩
    · split at decoded
      · cases decoded
      · exact ⟨[], (Prod.mk.inj (Except.ok.inj decoded)).2, fun member => by cases member⟩

theorem decodeEntity_error_iff {s : Bytes} {stop : Stop} :
    decodeEntity s = .error stop ↔
      stop = .overread ∧ s.length < 2 ∧ byteAt s ≠ '#'.toUInt8 := by
  constructor
  · intro failed
    simp only [decodeEntity] at failed
    split at failed
    · cases failed
    · rename_i noMark
      split at failed
      · cases failed
      · split at failed
        · rename_i short
          exact ⟨(Except.error.inj failed).symm, short, noMark⟩
        · cases failed
  · rintro ⟨rfl, short, noMark⟩
    have unnamed : namedEntity s = none := by
      cases named : namedEntity s with
      | none => rfl
      | some found =>
          have named : namedEntity s = some (found.1, found.2) := named
          rcases namedEntity_eq_some named with
            ⟨name, listed, split⟩
          have long : ∀ name ∈ [lit "amp;", lit "quot;", lit "lt;", lit "gt;", lit "apos;"],
              2 ≤ name.length := by decide
          have longEnough := long name listed
          rw [split, List.length_append] at short
          omega
    simp only [decodeEntity, if_neg noMark, unnamed, if_pos short]

/-- Behind what a reference eats, the cut references are the same. -/
theorem cutReference_append_iff (eaten p : Bytes) {stop : Nat} (plain : '&'.toUInt8 ∉ eaten) :
    CutReference (eaten ++ p) stop ↔ CutReference p stop := by
  constructor
  · rintro ⟨before, rest, split, long, short, noMark⟩
    rcases List.append_eq_append_iff.mp split with ⟨more, rfl, found⟩ | ⟨more, rfl, found⟩
    · exact ⟨more, rest, found, long, short, noMark⟩
    · cases more with
      | nil => exact ⟨[], rest, found.symm, long, short, noMark⟩
      | cons c more =>
          have same := (List.cons.inj found).1
          exact absurd (List.mem_append_right before (same ▸ List.mem_cons_self)) plain
  · rintro ⟨before, rest, rfl, long, short, noMark⟩
    exact ⟨eaten ++ before, rest, (List.append_assoc _ _ _).symm, long, short, noMark⟩

/-- Decoding fails in one way, and only at a cut reference. -/
theorem unescapeLoop_error_iff {fuel stop : Nat} {p : Bytes} {failure : Stop}
    (enough : p.length ≤ fuel) :
    unescapeLoop fuel p stop = .error failure ↔ failure = .overread ∧ CutReference p stop := by
  induction fuel generalizing p with
  | zero =>
      have empty : p = [] := List.length_eq_zero_iff.mp (Nat.le_zero.mp enough)
      subst empty
      constructor
      · rintro ⟨⟩
      · rintro ⟨-, before, rest, split, -⟩
        exact absurd split.symm (List.append_ne_nil_of_right_ne_nil _ (List.cons_ne_nil _ _))
  | succ fuel inductionHypothesis =>
      cases p with
      | nil =>
          constructor
          · rintro ⟨⟩
          · rintro ⟨-, before, rest, split, -⟩
            exact absurd split.symm (List.append_ne_nil_of_right_ne_nil _ (List.cons_ne_nil _ _))
      | cons c p =>
          have enoughTail : p.length ≤ fuel := Nat.le_of_succ_le_succ enough
          simp only [unescapeLoop]
          split
          · rename_i reached
            constructor
            · rintro ⟨⟩
            · rintro ⟨-, before, rest, split, long, -⟩
              rw [split, List.length_append, List.length_cons] at reached
              omega
          · rename_i inside
            rw [List.length_cons] at inside
            split
            · rename_i ampersand
              subst ampersand
              cases decoded : decodeEntity p with
              | error stopped =>
                  have cut := decodeEntity_error_iff.mp decoded
                  constructor
                  · intro failed
                    have same : stopped = failure := Except.error.inj failed
                    exact ⟨same.symm.trans cut.1, [], p, rfl, by omega, cut.2⟩
                  · rintro ⟨rfl, -⟩
                    exact congrArg Except.error cut.1
              | ok found =>
                  have decoded : decodeEntity p = .ok (found.1, found.2) := decoded
                  rcases decodeEntity_eats decoded with
                    ⟨eaten, split, plain⟩
                  have shorter : found.2.length ≤ fuel := by
                    rw [split, List.length_append] at enoughTail
                    omega
                  have later := inductionHypothesis shorter
                  have cut : CutReference ('&'.toUInt8 :: p) stop ↔ CutReference found.2 stop := by
                    rw [← cutReference_append_iff _ found.2 plain, ← split]
                    constructor
                    · rintro ⟨before, rest, atHead, long, short, noMark⟩
                      cases before with
                      | nil =>
                          rw [(List.cons.inj atHead).2] at decoded
                          rw [decodeEntity_error_iff.mpr ⟨rfl, short, noMark⟩] at decoded
                          cases decoded
                      | cons c before =>
                          exact ⟨before, rest, (List.cons.inj atHead).2, long, short, noMark⟩
                    · rintro ⟨before, rest, rfl, long, short, noMark⟩
                      exact ⟨_ :: before, rest, rfl, long, short, noMark⟩
                  rw [cut, ← later]
                  simp only [bind, Except.bind]
                  cases unescapeLoop fuel found.2 stop <;> simp
            · rename_i other
              have later := inductionHypothesis enoughTail
              have cut : CutReference (c :: p) stop ↔ CutReference p stop :=
                cutReference_append_iff [c] p
                  fun member => other (List.mem_singleton.mp member).symm
              rw [cut, ← later]
              simp only [bind, Except.bind]
              cases unescapeLoop fuel p stop <;> simp

theorem makeUnescapedString_error_iff {p s : Bytes} {failure : Stop} :
    makeUnescapedString p s = .error failure ↔
      failure = .overread ∧ CutReference p s.length :=
  unescapeLoop_error_iff (Nat.le_refl _)

/-! ## Scanning loops -/

theorem seekPair_error_iff {first second : UInt8} {p : Bytes} {failure : Stop}
    (visible : second ≠ 0) :
    seekPair first second p = .error failure ↔
      failure = .overread ∧ ¬ [first, second] <:+: p := by
  induction p with
  | nil => simp [seekPair, eq_comm (a := failure)]
  | cons c rest inductionHypothesis =>
      have atHead : (c = first ∧ byteAt rest = second) ↔ [first, second] <+: c :: rest := by
        cases rest with
        | nil => simp [byteAt, List.cons_prefix_cons, visible.symm]
        | cons d rest =>
            simp [byteAt, List.cons_prefix_cons, eq_comm (a := first), eq_comm (a := second)]
      simp only [seekPair, List.infix_cons_iff, ← atHead]
      split
      · rename_i found
        simp [found]
      · rename_i other
        simp [other, inductionHypothesis]

theorem seekByte_error_iff {wanted : UInt8} {p : Bytes} {failure : Stop} :
    seekByte wanted p = .error failure ↔ failure = .overread ∧ wanted ∉ p := by
  induction p with
  | nil => simp [seekByte, eq_comm (a := failure)]
  | cons c rest inductionHypothesis =>
      simp only [seekByte, List.mem_cons]
      split
      · rename_i found
        simp [found]
      · rename_i other
        simp [Ne.symm other, inductionHypothesis]

theorem seekCdataEnd_eq (p : Bytes) :
    (lit "]]>" <:+: p → lit "]]>" <+: seekCdataEnd p) ∧
      (¬ lit "]]>" <:+: p → seekCdataEnd p = []) := by
  induction p with
  | nil => exact ⟨fun found => absurd found (by decide), fun _ => rfl⟩
  | cons c rest inductionHypothesis =>
      simp only [seekCdataEnd, List.isPrefixOf_iff_prefix]
      split
      · rename_i found
        exact ⟨fun _ => found, fun absent => absurd found.isInfix absent⟩
      · rename_i other
        simp only [List.infix_cons_iff, other, false_or]
        exact inductionHypothesis

/-! ## The passes that leave the document -/

/-- The situations in which the next pass reads or moves beyond the NUL. -/
def Overruns (s : Parser) : Prop :=
  match s.state with
  | .xmldecl => ¬ lit "?>" <:+: s.p
  | .doctype => ¬ lit "]>" <:+: s.p
  | .cdata => ¬ lit "]]>" <:+: s.p
  | .close => Exists fun ret => Exists fun name =>
      s.ret = some ret ∧ (s.heap.get ret).name = some name ∧
        nameAt (skipSpaces s.p) <+: name ∧ '>'.toUInt8 ∉ afterName (skipSpaces s.p)
  | .text => CutReference s.p (seekMarkup s.p).length
  | .attrValue => isQuote (byteAt s.p) = true ∧
      (byteAt s.p ∉ s.p.tail ∨
        CutReference s.p.tail (s.p.tail.dropWhile fun c => c ≠ byteAt s.p).length)
  | _ => False

/-- A sequence that fails does so in its first part or in its second. -/
theorem bind_eq_error_iff {First Second : Type} {first : Except Stop First}
    {second : First → Except Stop Second} {failure : Stop} :
    first >>= second = .error failure ↔
      first = .error failure ∨
        Exists fun value => first = .ok value ∧ second value = .error failure := by
  cases first with
  | error stop => simp [bind, Except.bind]
  | ok value => simp [bind, Except.bind]

theorem linkNode_error {heap : Heap} {ret previous : Ptr} {current : NodeId} {failure : Stop}
    (failed : linkNode heap ret previous current = .error failure) : failure = .nullDeref := by
  simp only [linkNode] at failed
  split at failed
  · cases failed
  · cases failed
  · exact (Except.error.inj failed).symm

theorem addText_error {s : Parser} {content : Bytes} {flags : Nat} {failure : Stop}
    (failed : addText s content flags = .error failure) : failure = .nullDeref := by
  rcases bind_eq_error_iff.mp failed with unlinked | ⟨_, _, impossible⟩
  · exact linkNode_error unlinked
  · cases impossible

theorem seekByte_eq_dropWhile {wanted : UInt8} {p q : Bytes}
    (found : seekByte wanted p = .ok q) : q = p.dropWhile fun c => c ≠ wanted := by
  induction p with
  | nil => cases found
  | cons c rest inductionHypothesis =>
      simp only [seekByte] at found
      split at found
      · rename_i same
        rw [List.dropWhile_cons_of_neg (by simp [same])]
        exact (Except.ok.inj found).symm
      · rename_i other
        rw [List.dropWhile_cons_of_pos (by simp [other])]
        exact inductionHypothesis found

/-- A wired parser can always add a text node. -/
theorem Wired.addText_ok {s : Parser} (wired : Wired s) (content : Bytes) (flags : Nat) :
    Exists fun after => addText s content flags = .ok after := by
  rcases wired.linkNode_ok (textHeap s content flags) s.heap.size with ⟨heap, linked⟩
  exact ⟨_, congrArg (· >>= _) linked⟩

theorem passXmldecl_overread_iff {s : Parser} :
    passXmldecl s = .error .overread ↔ ¬ lit "?>" <:+: s.p := by
  simp only [passXmldecl, bind_eq_error_iff, reduceCtorEq, and_false, exists_false, or_false]
  rw [seekPair_error_iff (by decide)]
  exact and_iff_right rfl

theorem passDoctype_overread_iff {s : Parser} :
    passDoctype s = .error .overread ↔ ¬ lit "]>" <:+: s.p := by
  simp only [passDoctype, bind_eq_error_iff, reduceCtorEq, and_false, exists_false, or_false]
  rw [seekPair_error_iff (by decide)]
  exact and_iff_right rfl

theorem passOpen_not_overread (s : Parser) : passOpen s ≠ .error .overread := by
  intro failed
  simp only [passOpen] at failed
  repeat' split at failed
  all_goals try cases failed
  rcases bind_eq_error_iff.mp failed with unlinked | ⟨_, _, impossible⟩
  · cases linkNode_error unlinked
  · cases impossible

theorem passClose_overread_iff {s : Parser} :
    passClose s = .error .overread ↔
      Exists fun ret => Exists fun name =>
        s.ret = some ret ∧ (s.heap.get ret).name = some name ∧
          nameAt (skipSpaces s.p) <+: name ∧ '>'.toUInt8 ∉ afterName (skipSpaces s.p) := by
  simp only [passClose, memcmpEqual, List.isPrefixOf_iff_prefix]
  cases isOpen : s.ret with
  | none => simp
  | some ret =>
      cases named : (s.heap.get ret).name with
      | none => simp [named]
      | some name =>
          by_cases same : nameAt (skipSpaces s.p) <+: name
          · simp [same, named, bind_eq_error_iff, seekByte_error_iff]
          · simp [same, named]

theorem passInsideTag_not_overread (s : Parser) : passInsideTag s ≠ .error .overread := by
  intro failed
  simp only [passInsideTag, addAttribute] at failed
  repeat' split at failed
  all_goals cases failed

theorem passCdata_overread_iff {s : Parser} (wired : Wired s) :
    passCdata s = .error .overread ↔ s.p ≠ [] ∧ ¬ lit "]]>" <:+: s.p := by
  have scan := seekCdataEnd_eq s.p
  simp only [passCdata]
  by_cases closed : lit "]]>" <:+: s.p
  · have long : 3 ≤ (seekCdataEnd s.p).length := (scan.1 closed).length_le
    simp only [closed, not_true_eq_false, and_false, iff_false]
    intro failed
    split at failed
    · rcases bind_eq_error_iff.mp failed with unlinked | ⟨_, _, jumped⟩
      · cases addText_error unlinked
      · rw [if_neg (Nat.not_lt.mpr long)] at jumped
        cases jumped
    · cases failed
  · simp only [scan.2 closed, closed, not_false_eq_true, and_true, List.length_nil]
    cases s.p with
    | nil => simp
    | cons c p =>
        rcases wired.addText_ok (c :: p) xmlFlagNoescape with ⟨text, added⟩
        simp [added, bind, Except.bind]

theorem passText_overread_iff {s : Parser} :
    passText s = .error .overread ↔ CutReference s.p (seekMarkup s.p).length := by
  simp only [passText]
  split
  · rw [bind_eq_error_iff, makeUnescapedString_error_iff, and_iff_right rfl]
    refine or_iff_left fun later => ?_
    rcases later with ⟨content, -, failed⟩
    rcases bind_eq_error_iff.mp failed with unlinked | ⟨_, _, impossible⟩
    · cases addText_error unlinked
    · cases impossible
  · rename_i empty
    simp only [reduceCtorEq, false_iff]
    rintro ⟨before, rest, split, long, -⟩
    rw [split, List.length_append, List.length_cons, ← split] at empty
    omega

theorem passAttrValue_overread_iff {s : Parser} (wired : Wired s) (state : s.state = .attrValue) :
    passAttrValue s = .error .overread ↔ isQuote (byteAt s.p) = true ∧
      (byteAt s.p ∉ s.p.tail ∨
        CutReference s.p.tail (s.p.tail.dropWhile fun c => c ≠ byteAt s.p).length) := by
  simp only [passAttrValue]
  split
  · rename_i quoted
    rw [bind_eq_error_iff, seekByte_error_iff, and_iff_right rfl]
    refine (or_congr_right' fun present => ?_).trans (and_iff_right quoted).symm
    have closed : ¬ Exists fun failure => seekByte (byteAt s.p) s.p.tail = .error failure := by
      rintro ⟨_, failed⟩
      exact present (seekByte_error_iff.mp failed).2
    cases found : seekByte (byteAt s.p) s.p.tail with
    | error failure => exact (closed ⟨failure, found⟩).elim
    | ok c =>
        rw [← seekByte_eq_dropWhile found]
        rcases Option.ne_none_iff_exists'.mp (wired.value state).1 with ⟨attr, inAttr⟩
        rcases seekByte_eq_ok found with ⟨-, rest, -, -, rfl⟩
        simp [bind_eq_error_iff, makeUnescapedString_error_iff, inAttr, leaveAttrValue]
  · rename_i bare
    rcases List.exists_cons_of_ne_nil (wired.value state).2 with ⟨c, rest, more⟩
    simp [bare, leaveAttrValue, more]

/-- One pass leaves the document in the situations of `Overruns` and in no other. -/
theorem pass_overread_iff {s : Parser} (wired : Wired s) :
    pass s = .error .overread ↔ s.p ≠ [] ∧ Overruns s := by
  by_cases ended : s.p = []
  · simp only [pass, ended, if_true, ne_eq, not_true_eq_false, false_and, iff_false]
    split <;> nofun
  · rw [and_iff_right ended]
    cases state : s.state <;> simp only [pass, Overruns, state, if_neg ended, reduceCtorEq,
      if_false, if_true]
    case xmldecl => exact passXmldecl_overread_iff
    case doctype => exact passDoctype_overread_iff
    case cdata => exact (passCdata_overread_iff wired).trans (and_iff_right ended)
    case close => exact passClose_overread_iff
    case text => exact passText_overread_iff
    case attrValue => exact passAttrValue_overread_iff wired state
    case openTag => exact iff_false_intro (passOpen_not_overread s)
    case insideTag => exact iff_false_intro (passInsideTag_not_overread s)
    case error => simp

/-! ## The other ways out of the loop -/

/-- An end tag is read while no element with a name is open. -/
def Orphaned (s : Parser) : Prop :=
  s.state = .close ∧ ∀ ret name, s.ret = some ret → (s.heap.get ret).name ≠ some name

/-- The declaration in front of the cursor is none the parser knows. -/
def UnknownMarkup (s : Parser) : Prop :=
  s.state = .openTag ∧ byteAt s.p = '!'.toUInt8 ∧ ¬ lit "!--" <+: s.p ∧
    ¬ lit "![CDATA[" <+: s.p ∧ ¬ lit "!DOCTYPE" <+: s.p

/-- What the end of a run tells about the state in which it ends. -/
inductive Stopped (s : Parser) : Stop → Prop where
  | overrun (more : s.p ≠ []) (overruns : Overruns s) : Stopped s .overread
  | orphan (more : s.p ≠ []) (orphaned : Orphaned s) : Stopped s .nullDeref
  | mismatch (state : s.state = .error) : Stopped s (.returned none s.heap)
  | unknown (more : s.p ≠ []) (markup : UnknownMarkup s) : Stopped s (.returned none s.heap)
  | ended (state : s.state ≠ .error) (done : s.p = []) : Stopped s (.returned s.ret s.heap)

private theorem stopped_of_passOpen {s : Parser} {stop : Stop} (wired : Wired s) (more : s.p ≠ [])
    (state : s.state = .openTag) (stopped : passOpen s = .error stop) : Stopped s stop := by
  simp only [passOpen, List.isPrefixOf_iff_prefix] at stopped
  split at stopped
  · cases stopped
  · split at stopped
    · cases stopped
    · rename_i notComment
      split at stopped
      · cases stopped
      · rename_i notCdata
        split at stopped
        · cases stopped
        · rename_i notDoctype
          split at stopped
          · rename_i mark
            exact Except.error.inj stopped ▸
              .unknown more ⟨state, mark, notComment, notCdata, notDoctype⟩
          · split at stopped
            · cases stopped
            · rcases wired.linkNode_ok (elementHeap s) s.heap.size with ⟨heap, linked⟩
              rcases bind_eq_error_iff.mp stopped with unlinked | ⟨_, _, impossible⟩
              · cases linked.symm.trans unlinked
              · cases impossible

private theorem stopped_of_passClose {s : Parser} {stop : Stop} (more : s.p ≠ [])
    (state : s.state = .close) (stopped : passClose s = .error stop)
    (inside : stop ≠ .overread) : Stopped s stop := by
  simp only [passClose] at stopped
  split at stopped
  · rename_i noElement
    refine Except.error.inj stopped ▸ .orphan more ⟨state, fun ret _ isOpen => ?_⟩
    rw [noElement] at isOpen
    cases isOpen
  · rename_i ret isOpen
    split at stopped
    · rename_i unnamed
      refine Except.error.inj stopped ▸ .orphan more ⟨state, fun other name same => ?_⟩
      rw [← Option.some.inj (isOpen.symm.trans same), unnamed]
      intro impossible
      cases impossible
    · split at stopped
      · rcases bind_eq_error_iff.mp stopped with failed | ⟨_, _, impossible⟩
        · exact (inside (seekByte_error_iff.mp failed).1).elim
        · cases impossible
      · cases stopped

private theorem stopped_of_addText {s : Parser} {content : Bytes} {flags : Nat} {stop : Stop}
    (wired : Wired s) (stopped : addText s content flags = .error stop) : False := by
  rcases wired.addText_ok content flags with ⟨text, added⟩
  exact nomatch added.symm.trans stopped

/-- The inversion of the last iteration. -/
theorem Stopped.of_pass {s : Parser} {stop : Stop} (wired : Wired s)
    (stopped : pass s = .error stop) : Stopped s stop := by
  by_cases overread : stop = .overread
  · subst overread
    have overruns := (pass_overread_iff wired).mp stopped
    exact .overrun overruns.1 overruns.2
  · unfold pass at stopped
    split at stopped
    · rename_i state
      exact Except.error.inj stopped ▸ .mismatch state
    · rename_i notError
      split at stopped
      · rename_i done
        exact Except.error.inj stopped ▸ .ended notError done
      · rename_i more
        cases state : s.state <;> simp only [state] at stopped
        case init | comment | body => cases stopped
        case error => exact (notError state).elim
        case openTag => exact stopped_of_passOpen wired more state stopped
        case close => exact stopped_of_passClose more state stopped overread
        case xmldecl =>
          rcases bind_eq_error_iff.mp stopped with failed | ⟨_, _, impossible⟩
          · exact (overread ((seekPair_error_iff (by decide)).mp failed).1).elim
          · cases impossible
        case doctype =>
          rcases bind_eq_error_iff.mp stopped with failed | ⟨_, _, impossible⟩
          · exact (overread ((seekPair_error_iff (by decide)).mp failed).1).elim
          · cases impossible
        case insideTag =>
          simp only [passInsideTag, addAttribute] at stopped
          split at stopped
          · cases stopped
          · split at stopped
            · cases stopped
            · split at stopped
              · rename_i noElement
                exact (wired.tag (.inl state) noElement).elim
              · split at stopped <;> cases stopped
        case cdata =>
          simp only [passCdata] at stopped
          split at stopped
          · rcases bind_eq_error_iff.mp stopped with failed | ⟨_, _, jumped⟩
            · exact (stopped_of_addText wired failed).elim
            · split at jumped
              · exact (overread (Except.error.inj jumped).symm).elim
              · cases jumped
          · cases stopped
        case text =>
          simp only [passText] at stopped
          split at stopped
          · rcases bind_eq_error_iff.mp stopped with failed | ⟨_, _, failed⟩
            · exact (overread (makeUnescapedString_error_iff.mp failed).1).elim
            · rcases bind_eq_error_iff.mp failed with failed | ⟨_, _, impossible⟩
              · exact (stopped_of_addText wired failed).elim
              · cases impossible
          · cases stopped
        case attrValue =>
          simp only [passAttrValue, leaveAttrValue] at stopped
          split at stopped
          · rcases bind_eq_error_iff.mp stopped with failed | ⟨c, found, failed⟩
            · exact (overread (seekByte_error_iff.mp failed).1).elim
            · rcases bind_eq_error_iff.mp failed with failed | ⟨content, _, failed⟩
              · exact (overread (makeUnescapedString_error_iff.mp failed).1).elim
              · split at failed
                · rename_i noAttr
                  exact ((wired.value state).1 noAttr).elim
                · rcases seekByte_eq_ok found with ⟨-, rest, -, -, rfl⟩
                  cases failed
          · split at stopped
            · exact (overread (Except.error.inj stopped).symm).elim
            · cases stopped

/-- Following a NULL pointer happens at an orphaned end tag. -/
theorem pass_of_orphaned {s : Parser} (more : s.p ≠ []) (orphaned : Orphaned s) :
    pass s = .error .nullDeref := by
  rcases orphaned with ⟨state, unnamed⟩
  simp only [pass, state, reduceCtorEq, if_false, if_neg more, passClose]
  split
  · rfl
  · rename_i ret isOpen
    split
    · rfl
    · rename_i name named
      exact (unnamed ret name isOpen named).elim

/-- A run stays inside the document iff none of its states overruns it. -/
theorem reads_inside_iff (heap : Heap) (document : CString) :
    (∀ s, Reachable heap document.bytes s → pass s ≠ .error .overread) ↔
      ∀ s, Reachable heap document.bytes s → s.p ≠ [] → ¬ Overruns s := by
  refine forall_congr' fun s => forall_congr' fun reached => ?_
  rw [Ne, pass_overread_iff reached.wired]
  exact not_and

/-- An XML declaration that is cut off: the scan for its end passes the NUL. -/
theorem reads_past_cut_declaration :
    ¬ ∀ (heap : Heap) (document : CString) (s : Parser),
      Reachable heap document.bytes s → pass s ≠ .error .overread := by
  intro inside
  have returned : Returns pass (start Heap.empty (lit "<?x")) .overread := ⟨4, rfl⟩
  rcases returns_iff_reaches_stop.mp returned with ⟨s, reached, stop⟩
  exact inside Heap.empty ⟨lit "<?x", by decide⟩ s reached stop

end Parse
end TurboXSL
