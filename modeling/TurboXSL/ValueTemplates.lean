import TurboXSL.VerbatimCopies

namespace TurboXSL
namespace ValueTemplates

open Library Output

/-!
# Attribute value templates

A template is written from literal text and expressions: every brace of the
text is doubled, and an expression stands in single braces.  Whatever
evaluating an expression does, `xml_process_string` puts the texts and the
results together in their order.
-/

def IsBrace (c : UInt8) : Prop := c = '{'.toUInt8 ∨ c = '}'.toUInt8

instance : DecidablePred IsBrace := fun _ => inferInstanceAs (Decidable (_ ∨ _))

/-- A part of a template: literal text, or the text of an expression. -/
inductive TemplatePart where
  | literal (text : CString)
  | expression (text : CString) (closed : '}'.toUInt8 ∉ text.bytes)
      (opened : byteAt text.bytes ≠ '{'.toUInt8)

/-- Literal text as it is written, with every brace doubled. -/
def doubleBraces (text : Bytes) : Bytes :=
  text.flatMap fun c => if IsBrace c then [c, c] else [c]

def TemplatePart.render : TemplatePart → Bytes
  | .literal text => doubleBraces text.bytes
  | .expression text _ _ => '{'.toUInt8 :: (text.bytes ++ ['}'.toUInt8])

/-- The template that is written for a row of parts. -/
def renderTemplate (parts : List TemplatePart) : Bytes := parts.flatMap TemplatePart.render

/-- What a row of parts stands for, when `evaluate` gives the string of an
expression, and the texts of the expressions beside it. -/
def templateValue (evaluate : Bytes → Heap → Option (Option Bytes × Heap)) :
    List TemplatePart → Heap → Option (Bytes × List Bytes × Heap)
  | [], heap => some ([], [], heap)
  | .literal text :: parts, heap => do
      let (res, evaluated, heap) ← templateValue evaluate parts heap
      some (text.bytes ++ res, evaluated, heap)
  | .expression text _ _ :: parts, heap => do
      let (r, heap) ← evaluate text.bytes heap
      let (res, evaluated, heap) ← templateValue evaluate parts heap
      some (appended r ++ res, text.bytes :: evaluated, heap)

/-- `xml_process_string` with any function in the place of `xpath_eval_string`. -/
def processString (evaluate : Bytes → Heap → Option (Option Bytes × Heap))
    (string : Option Bytes) (heap : Heap) : Option (Option Bytes × List Bytes × Heap) :=
  match string with
  | none => some (none, [], heap)
  | some string => do
      let s := untilNul string
      if '{'.toUInt8 ∉ s ∧ '}'.toUInt8 ∉ s then some (some s, [], heap)
      else
        let (res, evaluated, heap) ← processLoop (fun expr heap => do
          let (r, heap) ← evaluate expr heap
          some (appended r, heap)) s.length s heap
        some (some res, evaluated, heap)

/-! ## The loop over one part -/

section Parts

variable {evaluate : Bytes → Heap → Option (Bytes × Heap)} {rest : Bytes}
  {behind : Heap → Option (Bytes × List Bytes × Heap)}

/-- Doubled braces are read as the text they were written for, and the loop goes on behind it. -/
theorem processLoop_literal
    (later : ∀ fuel heap, rest.length ≤ fuel → processLoop evaluate fuel rest heap = behind heap)
    (text : Bytes) {fuel : Nat} {heap : Heap} (enough : (doubleBraces text ++ rest).length ≤ fuel) :
    processLoop evaluate fuel (doubleBraces text ++ rest) heap =
      (behind heap).map fun (res, evaluated, after) => (text ++ res, evaluated, after) := by
  induction text generalizing fuel with
  | nil =>
      refine (later fuel heap enough).trans ?_
      cases behind heap <;> rfl
  | cons c text inductionHypothesis =>
      have doubled : doubleBraces (c :: text) ++ rest =
          (if IsBrace c then [c, c] else [c]) ++ (doubleBraces text ++ rest) := by
        rw [doubleBraces, List.flatMap_cons, List.append_assoc]
        rfl
      rw [doubled] at enough ⊢
      cases fuel with
      | zero =>
          rw [List.length_append] at enough
          split at enough <;> simp only [List.length_cons] at enough <;> omega
      | succ fuel =>
          have continued : ∀ found : Option (Bytes × List Bytes × Heap),
              ((found.map fun (res, evaluated, after) => (text ++ res, evaluated, after)).bind
                fun (res, evaluated, after) => some (c :: res, evaluated, after)) =
              found.map fun (res, evaluated, after) => (c :: text ++ res, evaluated, after) := by
            intro found
            cases found <;> rfl
          by_cases brace : IsBrace c
          · rw [if_pos brace] at enough ⊢
            have shorter : (doubleBraces text ++ rest).length ≤ fuel := by
              simp only [List.length_append, List.length_cons] at enough ⊢
              omega
            have follows : byteAt (c :: (doubleBraces text ++ rest)) = c := rfl
            rw [List.cons_append, List.singleton_append, processLoop]
            rcases brace with opens | closes
            · rw [if_pos opens, follows, if_pos opens, List.tail_cons, inductionHypothesis shorter]
              exact continued _
            · have other : ¬ c = '{'.toUInt8 := fun opens =>
                absurd (opens.symm.trans closes) (by decide)
              rw [if_neg other]
              dsimp only
              rw [follows, if_pos ⟨closes, closes⟩, List.tail_cons, inductionHypothesis shorter]
              exact continued _
          · rw [if_neg brace] at enough ⊢
            have shorter : (doubleBraces text ++ rest).length ≤ fuel :=
              Nat.le_of_succ_le_succ enough
            rw [List.singleton_append, processLoop, if_neg fun opens => brace (.inl opens)]
            dsimp only
            rw [if_neg fun both => brace (.inr both.1), inductionHypothesis shorter]
            exact continued _

/-- An expression is evaluated, and the loop goes on behind its closing brace. -/
theorem processLoop_expression
    (later : ∀ fuel heap, rest.length ≤ fuel → processLoop evaluate fuel rest heap = behind heap)
    {text : Bytes} (closed : '}'.toUInt8 ∉ text) (opened : byteAt text ≠ '{'.toUInt8)
    {fuel : Nat} {heap : Heap}
    (enough : ('{'.toUInt8 :: (text ++ '}'.toUInt8 :: rest)).length ≤ fuel) :
    processLoop evaluate fuel ('{'.toUInt8 :: (text ++ '}'.toUInt8 :: rest)) heap =
      (evaluate text heap).bind fun (r, heap) =>
        (behind heap).map fun (res, evaluated, after) => (r ++ res, text :: evaluated, after) := by
  cases fuel with
  | zero => cases enough
  | succ fuel =>
      have shorter : rest.length ≤ fuel := by
        simp only [List.length_cons, List.length_append] at enough
        omega
      have single : byteAt (text ++ '}'.toUInt8 :: rest) ≠ '{'.toUInt8 := by
        cases text with
        | nil => exact show '}'.toUInt8 ≠ '{'.toUInt8 by decide
        | cons c text => exact opened
      have inside : ∀ c ∈ text, decide (c ≠ '}'.toUInt8) = true := fun c member =>
        decide_eq_true fun same => closed (same ▸ member)
      have taken : (text ++ '}'.toUInt8 :: rest).takeWhile (fun c => c ≠ '}'.toUInt8) = text := by
        rw [List.takeWhile_append_of_pos inside, List.takeWhile_cons_of_neg (by simp),
          List.append_nil]
      have dropped : (text ++ '}'.toUInt8 :: rest).dropWhile (fun c => c ≠ '}'.toUInt8) =
          '}'.toUInt8 :: rest := by
        rw [List.dropWhile_append_of_pos inside, List.dropWhile_cons_of_neg (by simp)]
      rw [processLoop, if_pos rfl, if_neg single]
      dsimp only
      rw [taken, dropped]
      cases evaluate text heap with
      | none => rfl
      | some found =>
          dsimp only [Option.bind_eq_bind, Option.bind_some]
          rw [later fuel found.2 shorter]
          cases behind found.2 <;> rfl

end Parts

/-! ## The whole template -/

theorem processLoop_template (evaluate : Bytes → Heap → Option (Option Bytes × Heap))
    (parts : List TemplatePart) {fuel : Nat} (heap : Heap)
    (enough : (renderTemplate parts).length ≤ fuel) :
    processLoop (fun expr heap => do
        let (r, heap) ← evaluate expr heap
        some (appended r, heap)) fuel (renderTemplate parts) heap =
      templateValue evaluate parts heap := by
  induction parts generalizing fuel heap with
  | nil => cases fuel <;> rfl
  | cons part parts inductionHypothesis =>
      have later : ∀ fuel heap, (renderTemplate parts).length ≤ fuel →
          processLoop (fun expr heap => do
            let (r, heap) ← evaluate expr heap
            some (appended r, heap)) fuel (renderTemplate parts) heap =
          templateValue evaluate parts heap := fun _ heap long => inductionHypothesis heap long
      have split : renderTemplate (part :: parts) = part.render ++ renderTemplate parts := rfl
      rw [split] at enough ⊢
      cases part with
      | literal text =>
          rw [TemplatePart.render] at enough ⊢
          rw [processLoop_literal later text.bytes enough, templateValue]
          cases templateValue evaluate parts heap <;> rfl
      | expression text closed opened =>
          have whole : TemplatePart.render (.expression text closed opened) ++ renderTemplate parts =
              '{'.toUInt8 :: (text.bytes ++ '}'.toUInt8 :: renderTemplate parts) := by
            rw [TemplatePart.render, List.cons_append, List.append_assoc]
            rfl
          rw [whole] at enough ⊢
          rw [processLoop_expression later closed opened enough, templateValue]
          cases evaluate text.bytes heap with
          | none => rfl
          | some found =>
              dsimp only [Option.bind_eq_bind, Option.bind_some]
              cases templateValue evaluate parts found.2 <;> rfl

theorem zero_not_mem_renderTemplate (parts : List TemplatePart) : 0 ∉ renderTemplate parts := by
  intro member
  rcases List.mem_flatMap.mp member with ⟨part, -, here⟩
  cases part with
  | literal text =>
      rcases List.mem_flatMap.mp here with ⟨c, found, copied⟩
      have same : 0 = c := by
        split at copied <;> simpa using copied
      exact text.noNul (same ▸ found)
  | expression text closed opened =>
      rcases List.mem_cons.mp here with same | here
      · exact absurd same (by decide)
      · rcases List.mem_append.mp here with found | last
        · exact text.noNul found
        · exact absurd (List.mem_singleton.mp last) (by decide)

/-- A written template is processed to what its parts stand for, in any way of evaluating. -/
theorem processString_template (evaluate : Bytes → Heap → Option (Option Bytes × Heap))
    (parts : List TemplatePart) (heap : Heap) :
    processString evaluate (some (renderTemplate parts)) heap =
      (templateValue evaluate parts heap).map fun (res, evaluated, after) =>
        (some res, evaluated, after) := by
  have looped := processLoop_template evaluate parts heap (Nat.le_refl _)
  rw [processString]
  dsimp only
  rw [untilNul_eq_self (zero_not_mem_renderTemplate parts)]
  split
  · rename_i braceless
    have unbraced : Unbraced (renderTemplate parts) := by
      refine ⟨braceless.1, fun within => ?_⟩
      exact braceless.2 (within.subset (by decide))
    rw [← looped, processLoop_plain unbraced (Nat.le_refl _)]
    rfl
  · rw [looped]
    cases templateValue evaluate parts heap <;> rfl

/-- The string of one part, when expressions have the values that are given. -/
def TemplatePart.value (value : Bytes → Option Bytes) : TemplatePart → Bytes
  | .literal text => text.bytes
  | .expression text _ _ => appended (value text.bytes)

/-- The texts of the expressions. -/
def expressionTexts (parts : List TemplatePart) : List Bytes :=
  parts.filterMap fun part =>
    match part with
    | .literal _ => none
    | .expression text _ _ => some text.bytes

/-- Where evaluating depends on the text alone, a template stands for a concatenation. -/
theorem templateValue_pure (value : Bytes → Option Bytes) (parts : List TemplatePart) (heap : Heap) :
    templateValue (fun expr heap => some (value expr, heap)) parts heap =
      some (parts.flatMap (TemplatePart.value value), expressionTexts parts, heap) := by
  induction parts with
  | nil => rfl
  | cons part parts inductionHypothesis =>
      cases part with
      | literal text =>
          rw [templateValue, inductionHypothesis]
          rfl
      | expression text closed opened =>
          rw [templateValue]
          dsimp only [Option.bind_eq_bind, Option.bind_some]
          rw [inductionHypothesis]
          rfl

variable {Num : Type} [Double Num]

theorem xmlProcessString_eq (env : Env Num) (depth : Nat) (context : NodeId)
    (string : Option Bytes) (heap : Heap) :
    xmlProcessString env depth context string heap =
      processString (fun expr heap => do
        xpathEvalString env depth (← env.findExpr expr) context heap) string heap := by
  cases string with
  | none => rfl
  | some string =>
      have same : (fun expr heap => do
            let (r, heap) ← xpathEvalString env depth (← env.findExpr expr) context heap
            some (appended r, heap)) =
          (fun expr heap => do
            let (r, heap) ← (do
              let tree ← env.findExpr expr
              xpathEvalString env depth tree context heap)
            some (appended r, heap)) := by
        funext expr heap
        cases env.findExpr expr <;> rfl
      rw [xmlProcessString, processString, same]

/-- A written template yields the texts and the strings of the expressions,
one after the other: with any function of the text for `xpath_eval_string`,
and with `xpath_eval_string` itself, whatever it does to the memory. -/
theorem template_concatenates (env : Env Num) (depth : Nat) (context : NodeId)
    (parts : List TemplatePart) (heap : Heap) :
    (∀ value : Bytes → Option Bytes,
      processString (fun expr heap => some (value expr, heap)) (some (renderTemplate parts)) heap =
        some (some (parts.flatMap (TemplatePart.value value)), expressionTexts parts, heap)) ∧
    xmlProcessString env depth context (some (renderTemplate parts)) heap =
      (templateValue (fun expr heap => do
          xpathEvalString env depth (← env.findExpr expr) context heap) parts heap).map
        fun (res, evaluated, after) => (some res, evaluated, after) := by
  refine ⟨fun value => ?_, ?_⟩
  · rw [processString_template, templateValue_pure]
    rfl
  · rw [xmlProcessString_eq, processString_template]

end ValueTemplates
end TurboXSL
