import Mathlib.Data.List.Induction
import Mathlib.Data.List.Nodup

namespace Library

/-!
# First occurrences

Of a list of things that have keys, the first thing of every key.  The first
things are what a pass over the list collects that asks a table for every key;
their keys are the keys of the list without repetitions.
-/

universe u v

variable {Thing : Type u} {Key : Type v} [DecidableEq Key] (key : Thing → Key)

/-- The first thing of every key, in order. -/
def firsts (things : List Thing) : List Thing :=
  things.foldl (fun found thing =>
    if key thing ∈ found.map key then found else found ++ [thing]) []

@[simp] theorem firsts_nil : firsts key [] = [] := rfl

theorem firsts_concat (things : List Thing) (thing : Thing) :
    firsts key (things ++ [thing]) =
      if key thing ∈ (firsts key things).map key then firsts key things
      else firsts key things ++ [thing] := by
  rw [firsts, List.foldl_append]
  rfl

variable {key}

theorem firsts_subset {things : List Thing} {thing : Thing} (member : thing ∈ firsts key things) :
    thing ∈ things := by
  induction things using List.reverseRecOn with
  | nil => exact member
  | append_singleton things last inductionHypothesis =>
      rw [List.mem_append]
      rw [firsts_concat] at member
      split at member
      · exact .inl (inductionHypothesis member)
      · rcases List.mem_append.mp member with earlier | same
        · exact .inl (inductionHypothesis earlier)
        · exact .inr same

/-- Only the keys of the things matter. -/
theorem firsts_congr {other : Thing → Key} {things : List Thing}
    (agree : ∀ thing ∈ things, key thing = other thing) : firsts key things = firsts other things := by
  induction things using List.reverseRecOn with
  | nil => rfl
  | append_singleton things last inductionHypothesis =>
      have earlier := inductionHypothesis fun thing member =>
        agree thing (List.mem_append_left _ member)
      have keys : (firsts other things).map key = (firsts other things).map other :=
        List.map_congr_left fun thing member =>
          agree thing (List.mem_append_left _ (firsts_subset member))
      rw [firsts_concat, firsts_concat, earlier, keys,
        agree last (List.mem_append_right _ (List.mem_singleton_self last))]

/-- Their keys are the keys without repetitions. -/
theorem map_firsts [BEq Key] [LawfulBEq Key] (things : List Thing) :
    (firsts key things).map key = (things.map key).eraseDups := by
  induction things using List.reverseRecOn with
  | nil => rfl
  | append_singleton things last inductionHypothesis =>
      have known : key last ∈ (firsts key things).map key ↔ key last ∈ things.map key := by
        rw [inductionHypothesis, List.mem_eraseDups]
      rw [firsts_concat, List.map_append, List.map_singleton, List.eraseDups_append,
        List.removeAll]
      by_cases old : key last ∈ things.map key
      · rw [if_pos (known.mpr old), List.filter_cons_of_neg (by simpa using old), inductionHypothesis]
        exact (List.append_nil _).symm
      · rw [if_neg (fun there => old (known.mp there)), List.map_append, inductionHypothesis,
          List.filter_cons_of_pos (by simpa using old)]
        rfl

theorem mem_map_firsts {things : List Thing} {k : Key} :
    k ∈ (firsts key things).map key ↔ k ∈ things.map key := by
  rw [map_firsts, List.mem_eraseDups]

theorem nodup_map_firsts (things : List Thing) : ((firsts key things).map key).Nodup := by
  induction things using List.reverseRecOn with
  | nil => exact List.nodup_nil
  | append_singleton things last inductionHypothesis =>
      rw [firsts_concat]
      split
      next => exact inductionHypothesis
      next new =>
          rw [List.map_append]
          refine List.nodup_append.mpr ⟨inductionHypothesis, List.nodup_singleton _, ?_⟩
          rintro k there other here rfl
          exact new (List.mem_singleton.mp here ▸ there)

theorem nodup_firsts (things : List Thing) : (firsts key things).Nodup :=
  .of_map key (nodup_map_firsts things)

/-- No two of them have the same key. -/
theorem eq_of_mem_firsts {things : List Thing} {thing other : Thing}
    (member : thing ∈ firsts key things) (another : other ∈ firsts key things)
    (same : key thing = key other) : thing = other :=
  List.inj_on_of_nodup_map (nodup_map_firsts things) member another same

/-- More things add more first things behind those there are. -/
theorem firsts_append (front back : List Thing) :
    firsts key front <+: firsts key (front ++ back) := by
  induction back using List.reverseRecOn with
  | nil => exact ⟨[], by rw [List.append_nil, List.append_nil]⟩
  | append_singleton back last inductionHypothesis =>
      rw [← List.append_assoc, firsts_concat]
      split
      · exact inductionHypothesis
      · exact inductionHypothesis.trans (List.prefix_append _ _)

omit [DecidableEq Key] in
/-- Lists with the same keys are equal where things with the same key are. -/
theorem eq_of_map_eq {left right : List Thing}
    (apart : ∀ thing ∈ left, ∀ other ∈ right, key thing = key other → thing = other)
    (same : left.map key = right.map key) : left = right := by
  induction left generalizing right with
  | nil => exact (List.map_eq_nil_iff.mp same.symm).symm
  | cons thing left inductionHypothesis =>
      cases right with
      | nil => cases same
      | cons other right =>
          rcases List.cons.inj same with ⟨head, tail⟩
          rw [apart thing List.mem_cons_self other List.mem_cons_self head]
          refine congrArg (other :: ·) (inductionHypothesis ?_ tail)
          exact fun first member second another =>
            apart first (List.mem_cons_of_mem thing member) second (List.mem_cons_of_mem other another)

/-- Every thing may be replaced by the first one of its key. -/
theorem firsts_replaced {things others : List Thing} (keys : others.map key = things.map key)
    (replaced : ∀ thing ∈ others, thing ∈ firsts key things) :
    firsts key others = firsts key things := by
  have same : (firsts key others).map key = (firsts key things).map key := by
    rw [map_firsts, map_firsts, keys]
  apply eq_of_map_eq _ same
  intro thing member other another equal
  exact eq_of_mem_firsts (replaced thing (firsts_subset member)) another equal

end Library
