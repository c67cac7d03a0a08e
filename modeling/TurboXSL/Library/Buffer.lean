import Mathlib.Data.List.Infix

namespace Library

/-!
# Bounded buffers

A buffer is a list of fixed length.  An access that leaves it has no result.
What a buffer holds is read from its start: a text followed by an end mark is
held when the two are a prefix of the buffer, whatever stands behind them.
-/

namespace Buffer

variable {α : Type*}

/-- One element is stored. -/
def store (buffer : List α) (i : Nat) (x : α) : Option (List α) :=
  if i < buffer.length then some (buffer.set i x) else none

/-- `count` elements from the start of `source` are stored from `i` on. -/
def blit (buffer : List α) (i : Nat) (source : List α) (count : Nat) : Option (List α) :=
  if i + count ≤ buffer.length ∧ count ≤ source.length then
    some (buffer.take i ++ source.take count ++ buffer.drop (i + count))
  else none

theorem store_eq_some {buffer : List α} {i : Nat} (inside : i < buffer.length) (x : α) :
    store buffer i x = some (buffer.set i x) :=
  if_pos inside

theorem store_eq_none {buffer : List α} {i : Nat} (outside : buffer.length ≤ i) (x : α) :
    store buffer i x = none :=
  if_neg (Nat.not_lt.mpr outside)

theorem blit_length {buffer source after : List α} {i count : Nat}
    (done : blit buffer i source count = some after) : after.length = buffer.length := by
  rw [blit] at done
  split at done
  · rename_i fits
    cases done
    simp only [List.length_append, List.length_take, List.length_drop]
    omega
  · cases done

/-- A copy to the start of a longer buffer holds what the source held. -/
theorem blit_start {buffer source text : List α} {count : Nat} (held : text <+: source)
    (covered : text.length ≤ count) (room : count ≤ buffer.length) (copied : count ≤ source.length) :
    Exists fun after => blit buffer 0 source count = some after ∧ text <+: after := by
  refine ⟨_, if_pos ⟨by omega, copied⟩, ?_⟩
  rw [List.take_zero, List.nil_append]
  exact (List.prefix_take_iff.mpr ⟨held, covered⟩).trans (List.prefix_append _ _)

/-- Two elements stored behind a text. -/
theorem store_store {buffer text : List α} (held : text <+: buffer)
    (room : text.length + 1 < buffer.length) (x mark : α) :
    text ++ [x] ++ [mark] <+: (buffer.set text.length x).set (text.length + 1) mark := by
  rcases held with ⟨rest, rfl⟩
  match rest with
  | [] =>
      rw [List.append_nil] at room
      omega
  | [_] => simp at room
  | first :: second :: rest =>
      refine ⟨rest, ?_⟩
      simp

/-- A text copied behind a text. -/
theorem blit_append {buffer text source : List α} (held : text <+: buffer)
    (room : text.length + source.length ≤ buffer.length) :
    Exists fun after => blit buffer text.length source source.length = some after ∧
      text ++ source <+: after := by
  rcases held with ⟨rest, rfl⟩
  refine ⟨_, if_pos ⟨room, Nat.le_refl _⟩, ?_⟩
  rw [List.take_length, List.take_left]
  exact List.prefix_append _ _

end Buffer
end Library
