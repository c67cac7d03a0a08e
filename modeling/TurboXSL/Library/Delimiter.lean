import Mathlib.Data.List.Infix

namespace Library

/-!
# Text up to a delimiter

A scanner that looks for a delimiter from left to right finds the one its
writer meant when the text in front does not contain it and the delimiter
cannot begin inside the text and end inside itself.
-/

universe u

variable {Symbol : Type u}

/-- No proper end of the delimiter is one of its beginnings. -/
def Unbordered (delimiter : List Symbol) : Prop :=
  ∀ count < delimiter.length, 0 < count → ¬ delimiter.drop count <+: delimiter

instance [DecidableEq Symbol] (delimiter : List Symbol) : Decidable (Unbordered delimiter) :=
  inferInstanceAs (Decidable (∀ count < delimiter.length, _))

/-- In front of the delimiter, the scanner does not find it. -/
theorem Unbordered.not_prefix {delimiter text : List Symbol}
    (unbordered : Unbordered delimiter) (absent : ¬ delimiter <:+: text) (more : text ≠ [])
    (rest : List Symbol) : ¬ delimiter <+: text ++ (delimiter ++ rest) := by
  intro found
  rcases Nat.lt_or_ge text.length delimiter.length with short | long
  · have start : text <+: delimiter :=
      List.prefix_of_prefix_length_le (List.prefix_append text _) found (Nat.le_of_lt short)
    rcases start with ⟨later, split⟩
    have dropped : delimiter.drop text.length = later := by
      rw [← split, List.drop_left]
    have overlap : later <+: delimiter ++ rest := by
      rw [← split, List.append_assoc] at found
      have tail := (List.prefix_append_right_inj text).mp found
      rwa [← split, List.append_assoc]
    have border : later <+: delimiter := by
      refine List.prefix_of_prefix_length_le overlap (List.prefix_append _ _) ?_
      rw [← dropped, List.length_drop]
      exact Nat.sub_le _ _
    exact unbordered text.length short (List.length_pos_iff.mpr more) (dropped ▸ border)
  · have start : delimiter <+: text :=
      List.prefix_of_prefix_length_le found (List.prefix_append text _) long
    exact absent start.isInfix

end Library
