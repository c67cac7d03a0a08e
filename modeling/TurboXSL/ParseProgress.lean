import TurboXSL.ParseSafety

namespace TurboXSL
namespace Parse

open Library

/-!
# The parser's progress

Several states hand the cursor on without moving it, so the measure of
`pace` weighs the bytes that remain against the rank of the state.  While a
value is read the bytes are counted from the scan pointer `c`, because that
is where an unquoted value is left from.  Only one situation keeps the
measure: `Stuck`, a byte inside a tag that no attribute can begin with.
-/

/-- Inside a tag, a byte that begins no name and is not eaten in any other way. -/
def Stuck (s : Parser) : Prop :=
  s.state = .insideTag ∧ AtAttribute s.p ∧ canName (byteAt s.p) = false ∧
    xIsWs (byteAt s.p) = false ∧ byteAt s.p ≠ '='.toUInt8

/-- What the progress of a value relies on. -/
structure Paced (s : Parser) : Prop where
  notBody : s.state ≠ .body
  value : s.state = .attrValue → s.p.length ≤ s.c.length

theorem Paced.start (heap : Heap) (document : Bytes) : Paced (start heap document) :=
  ⟨nofun, nofun⟩

/-- How late a state comes among those that share one cursor. -/
def rank : State → Nat
  | .openTag | .cdata => 2
  | .insideTag | .close | .text => 1
  | _ => 0

/-- The measure that every pass decreases. -/
def pace (s : Parser) : Nat :=
  3 * (if s.state = .attrValue then s.c.length else s.p.length) + rank s.state

theorem skipSpaces_length_le (p : Bytes) : (skipSpaces p).length ≤ p.length :=
  (List.dropWhile_sublist xIsWs).length_le

theorem afterName_length_le (p : Bytes) : (afterName p).length ≤ p.length :=
  (List.dropWhile_sublist canName).length_le

theorem behindAttribute_length_le (s : Parser) : (behindAttribute s).length ≤ s.p.length :=
  (skipSpaces_length_le _).trans ((afterName_length_le _).trans (skipSpaces_length_le _))

theorem nameAt_length_le (p : Bytes) : (nameAt p).length ≤ p.length :=
  (List.takeWhile_sublist canName).length_le

theorem seekMarkup_length_le (p : Bytes) : (seekMarkup p).length ≤ p.length :=
  (List.dropWhile_sublist _).length_le

theorem seekPair_length_le {first second : UInt8} {p q : Bytes}
    (found : seekPair first second p = .ok q) : 1 ≤ q.length ∧ q.length ≤ p.length := by
  induction p with
  | nil => cases found
  | cons c rest inductionHypothesis =>
      simp only [seekPair] at found
      split at found
      · rw [← Except.ok.inj found]
        exact ⟨Nat.succ_pos _, Nat.le_refl _⟩
      · have later := inductionHypothesis found
        exact ⟨later.1, Nat.le_succ_of_le later.2⟩

theorem seekByte_length_le {wanted : UInt8} {p q : Bytes} (found : seekByte wanted p = .ok q) :
    q.length ≤ p.length := by
  rw [seekByte_eq_dropWhile found]
  exact (List.dropWhile_sublist _).length_le

theorem tail_length_lt {p : Bytes} (more : p ≠ []) : p.tail.length < p.length := by
  cases p with
  | nil => exact (more rfl).elim
  | cons c rest => exact Nat.lt_succ_self _

theorem drop_length_lt {p : Bytes} (more : p ≠ []) {count : Nat} (some : 0 < count) :
    (p.drop count).length < p.length := by
  have positive := List.length_pos_iff.mpr more
  rw [List.length_drop]
  omega

/-- White space or a name at the cursor is eaten by an attribute. -/
theorem behindAttribute_length_lt {s : Parser} (more : s.p ≠ [])
    (eaten : canName (byteAt s.p) = true ∨ xIsWs (byteAt s.p) = true) :
    (behindAttribute s).length < s.p.length := by
  simp only [behindAttribute]
  cases here : s.p with
  | nil => exact (more here).elim
  | cons c rest =>
      rw [here] at eaten
      have later := skipSpaces_length_le (afterName (skipSpaces (c :: rest)))
      by_cases space : xIsWs c = true
      · have skipped : skipSpaces (c :: rest) = skipSpaces rest :=
          List.dropWhile_cons_of_pos space
        have shorter := (afterName_length_le (skipSpaces rest)).trans (skipSpaces_length_le rest)
        rw [skipped] at later ⊢
        exact Nat.lt_succ_of_le (later.trans shorter)
      · have name : canName c = true := eaten.resolve_right space
        have kept : skipSpaces (c :: rest) = c :: rest := List.dropWhile_cons_of_neg space
        have skipped : afterName (c :: rest) = afterName rest := List.dropWhile_cons_of_pos name
        have shorter := afterName_length_le rest
        rw [kept, skipped] at later ⊢
        exact Nat.lt_succ_of_le (later.trans shorter)

/-- Any other byte is not. -/
theorem behindAttribute_of_other {s : Parser} (noName : canName (byteAt s.p) = false)
    (noSpace : xIsWs (byteAt s.p) = false) : behindAttribute s = s.p := by
  simp only [behindAttribute]
  cases here : s.p with
  | nil => rfl
  | cons c rest =>
      rw [here] at noName noSpace
      have kept : skipSpaces (c :: rest) = c :: rest :=
        List.dropWhile_cons_of_neg (Bool.eq_false_iff.mp noSpace)
      have unnamed : afterName (c :: rest) = c :: rest :=
        List.dropWhile_cons_of_neg (Bool.eq_false_iff.mp noName)
      rw [kept, unnamed, kept]

theorem passComment_length_lt {s : Parser} (more : s.p ≠ []) :
    (passComment s).p.length < s.p.length := by
  simp only [passComment]
  split
  · exact drop_length_lt more (by decide)
  · exact tail_length_lt more

theorem Paced.passed {s s' : Parser} (paced : Paced s) (step : Passed s s') : Paced s' := by
  cases step with
  | init =>
      simp only [passInit]
      constructor <;> split <;> rintro ⟨⟩
  | comment state =>
      rcases passComment_state s with new | new | new <;>
        constructor <;> rw [new] <;> try rw [state]
      all_goals rintro ⟨⟩
  | body state => exact (paced.notBody state).elim
  | bareAttribute state =>
      constructor <;> simp only [state] <;> rintro ⟨⟩
  | valuedAttribute =>
      refine ⟨by rintro ⟨⟩, fun _ => ?_⟩
      exact (skipSpaces_length_le _).trans ((List.tail_sublist _).length_le.trans (skipSpaces_length_le _))
  | _ => constructor <;> rintro ⟨⟩

theorem Reachable.paced {heap : Heap} {document : Bytes} {s : Parser}
    (reached : Reachable heap document s) : Paced s :=
  reached.preserves (fun _ _ paced step => paced.passed (.of_pass step)) (.start heap document)

/-- Every pass decreases the measure unless the parser is stuck. -/
theorem pace_lt {s s' : Parser} (paced : Paced s) (more : s.p ≠ []) (free : ¬ Stuck s)
    (step : Passed s s') : pace s' < pace s := by
  have positive := List.length_pos_iff.mpr more
  cases step with
  | init state =>
      have shorter := tail_length_lt more
      simp only [pace, state, passInit]
      split <;> simp [rank] <;> omega
  | comment state =>
      have shorter := passComment_length_lt more
      rcases passComment_state s with new | new | new <;>
        simp [pace, state, new, rank] <;> omega
  | xmldecl state p found | doctype state p found =>
      have bounds := seekPair_length_le found
      simp [pace, state, rank]
      omega
  | openDecl state | openClose state | openComment state | openCdata state | openDoctype state
  | tagSelfClose state | tagEnd state => simp [pace, state, rank] <;> omega
  | openElement state =>
      have shorter := behindAttribute_length_le s
      simp [pace, state, rank]
      omega
  | closeMatch state ret name q isOpen named same found =>
      have shorter := (seekByte_length_le found).trans
        ((afterName_length_le _).trans (skipSpaces_length_le s.p))
      simp [pace, state, rank]
      omega
  | closeMismatch state =>
      have shorter := (nameAt_length_le _).trans (skipSpaces_length_le s.p)
      simp [pace, state, rank]
      omega
  | valuedAttribute state =>
      have shorter := (afterName_length_le _).trans (skipSpaces_length_le s.p)
      simp [pace, state, rank]
      omega
  | bareAttribute state here current inTag bare =>
      have shorter : (behindAttribute s).length < s.p.length := by
        by_contra same
        have kept : ¬ (canName (byteAt s.p) = true ∨ xIsWs (byteAt s.p) = true) :=
          fun eaten => same (behindAttribute_length_lt more eaten)
        rw [not_or, Bool.not_eq_true, Bool.not_eq_true] at kept
        refine free ⟨state, here, kept.1, kept.2, fun equals => bare ?_⟩
        rw [behindAttribute_of_other kept.1 kept.2]
        exact equals
      simp [pace, state, rank]
      omega
  | cdata state heap content closed =>
      simp [pace, state, rank]
      omega
  | emptyCdata state | noText state =>
      simp [pace, state, rank]
  | text state =>
      simp [pace, state, rank]
      omega
  | value state rest content attr quoted found =>
      have scanned := seekByte_length_le found
      have shorter := skipSpaces_length_le rest
      have scan := paced.value state
      simp [pace, state, rank] at scanned ⊢
      omega
  | bareValue state c rest bare more =>
      have shorter := skipSpaces_length_le rest
      simp [pace, state, rank, more]
      omega
  | body state => exact (paced.notBody state).elim

/-- A stuck parser makes one useless attribute after the other. -/
theorem Stuck.pass {s : Parser} (wired : Wired s) (more : s.p ≠ []) (stuck : Stuck s) :
    Exists fun after => Steps pass s after ∧ after.p = s.p ∧ Stuck after := by
  rcases stuck with ⟨state, here, noName, noSpace, notEquals⟩
  rcases Option.ne_none_iff_exists'.mp (wired.tag (.inl state)) with ⟨current, inTag⟩
  have kept := behindAttribute_of_other noName noSpace
  refine ⟨{ s with
    p := behindAttribute s
    c := afterName (skipSpaces s.p)
    attr := some s.heap.size
    heap := attributeHeap s current }, ?_, kept, state, ?_, ?_, ?_, ?_⟩
  · have bare : byteAt (skipSpaces (afterName (skipSpaces s.p))) ≠ '='.toUInt8 := by
      rw [← behindAttribute, kept]
      exact notEquals
    simp only [Steps, Parse.pass, state, reduceCtorEq, if_false, if_neg more, passInsideTag,
      List.isPrefixOf_iff_prefix, if_neg here.1, if_neg here.2, addAttribute, inTag, if_neg bare]
    rfl
  all_goals simp only [kept]
  · exact here
  · exact noName
  · exact noSpace
  · exact notEquals

theorem more_of_steps {s s' : Parser} (step : Steps pass s s') : s.p ≠ [] := by
  intro done
  simp only [Steps, Parse.pass, done, if_true] at step
  split at step <;> cases step

/-- A run that is never stuck is left. -/
theorem halts_of_not_stuck {heap : Heap} {document : Bytes}
    (free : ∀ s, Reachable heap document s → s.p ≠ [] → ¬ Stuck s) :
    Halts pass (start heap document) := by
  refine Halts.of_measure (Reachable heap document) pace ?_ ?_ .refl
  · intro before after reached step
    exact reached.tail step
  · intro before after reached step
    have more := more_of_steps step
    exact pace_lt reached.paced more (free before reached more) (.of_pass step)

/-- `s` comes to a later cursor, or the loop returns, after finitely many passes. -/
def Advances (s : Parser) : Prop :=
  Exists fun later => Reaches pass s later ∧
    (later.p.length < s.p.length ∨
      Exists fun node => Exists fun heap => pass later = .error (.returned node heap))

/-- The situations in which the loop neither goes on nor returns. -/
def Fails (s : Parser) : Prop := Stuck s ∨ Overruns s ∨ Orphaned s

/-- A run that meets no failure is left by a `return`. -/
theorem returns_of_not_fails {heap : Heap} {document : Bytes}
    (free : ∀ s, Reachable heap document s → s.p ≠ [] → ¬ Fails s) :
    Exists fun node => Exists fun after => DoParse heap document node after := by
  rcases halts_of_not_stuck fun s reached more stuck => free s reached more (.inl stuck) with
    ⟨stop, returned⟩
  rcases returns_iff_reaches_stop.mp returned with ⟨last, reached, stopped⟩
  have inversion := Stopped.of_pass (Reachable.wired reached) stopped
  cases inversion with
  | overrun more overruns => exact (free last reached more (.inr (.inl overruns))).elim
  | orphan more orphaned => exact (free last reached more (.inr (.inr orphaned))).elim
  | mismatch | unknown | ended => exact ⟨_, _, returned⟩

/-- A run that meets a failure is not. -/
theorem not_returns_of_fails {heap : Heap} {document : Bytes} {s : Parser}
    (reached : Reachable heap document s) (more : s.p ≠ []) (fails : Fails s) (node : Ptr)
    (after : Heap) : ¬ DoParse heap document node after := by
  intro returned
  have later := (reached.returns_iff _).mp returned
  rcases fails with stuck | overruns | orphaned
  · refine not_halts_of_trap (fun s => Reachable heap document s ∧ s.p ≠ [] ∧ Stuck s) ?_
      ⟨reached, more, stuck⟩ ⟨_, later⟩
    rintro before ⟨reached, more, stuck⟩
    rcases stuck.pass reached.wired more with ⟨next, step, same, again⟩
    exact ⟨next, step, reached.tail step, same ▸ more, again⟩
  · have stopped := (pass_overread_iff reached.wired).mpr ⟨more, overruns⟩
    exact nomatch later.unique (.of_stop stopped)
  · exact nomatch later.unique (.of_stop (pass_of_orphaned more orphaned))

/-- `do_parse` returns, with progress on the way, iff no state on the way fails. -/
theorem terminates_iff (heap : Heap) (document : CString) :
    ((Exists fun node => Exists fun after => DoParse heap document.bytes node after) ∧
        ∀ s, Reachable heap document.bytes s → s.p ≠ [] → s.state ≠ .error → Advances s) ↔
      ∀ s, Reachable heap document.bytes s → s.p ≠ [] → ¬ Fails s := by
  constructor
  · rintro ⟨⟨node, after, returned⟩, -⟩ s reached more fails
    exact not_returns_of_fails reached more fails node after returned
  · intro free
    rcases returns_of_not_fails free with ⟨node, after, returned⟩
    refine ⟨⟨node, after, returned⟩, fun s reached _ _ => ?_⟩
    have later := (reached.returns_iff _).mp returned
    rcases returns_iff_reaches_stop.mp later with ⟨last, reached, stopped⟩
    exact ⟨last, reached, .inr ⟨node, after, stopped⟩⟩

/-- A dollar sign where an attribute name is expected is never left. -/
theorem stray_byte_never_left :
    ¬ ∀ (heap : Heap) (document : CString),
      (Exists fun node => Exists fun after => DoParse heap document.bytes node after) ∧
        ∀ s, Reachable heap document.bytes s → s.p ≠ [] → s.state ≠ .error → Advances s := by
  intro returns
  rcases (returns Heap.empty ⟨lit "<a $", by decide⟩).1 with ⟨node, after, returned⟩
  have stuck : Exists fun s => Reachable Heap.empty (lit "<a $") s ∧ s.p ≠ [] ∧ Stuck s :=
    ⟨_, .tail (.single rfl) rfl, by decide, rfl, ⟨by decide, by decide⟩, rfl, rfl, by decide⟩
  rcases stuck with ⟨s, reached, more, stuck⟩
  exact not_returns_of_fails reached more (.inl stuck) node after returned

end Parse
end TurboXSL
