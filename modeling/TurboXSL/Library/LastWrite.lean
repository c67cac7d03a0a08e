import Mathlib.Data.List.Nodup

namespace Library

/-!
# Tables that keep the last write

A table is a list of keys with values.  It has accumulated a sequence of writes
where every key that was written stands in it once, with the value that was
written last.
-/

universe u v

variable {Key : Type u} {Value : Type v} [DecidableEq Key]

def lastWritten (writes : List (Key × Value)) (key : Key) : Option Value :=
  (writes.reverse.find? fun write => decide (write.1 = key)).map Prod.snd

theorem lastWritten_append (writes : List (Key × Value)) (key other : Key) (value : Value) :
    lastWritten (writes ++ [(key, value)]) other =
      if key = other then some value else lastWritten writes other := by
  rw [lastWritten, List.reverse_append, List.reverse_singleton, List.singleton_append,
    List.find?_cons]
  by_cases same : key = other
  · rw [if_pos same, decide_eq_true same]
    rfl
  · rw [if_neg same, decide_eq_false same]
    rfl

structure Accumulated (table writes : List (Key × Value)) : Prop where
  once : (table.map Prod.fst).Nodup
  last : ∀ key value, (key, value) ∈ table ↔ lastWritten writes key = some value

omit [DecidableEq Key] in
theorem key_mem_of_mem {table : List (Key × Value)} {key : Key} {value : Value}
    (member : (key, value) ∈ table) : key ∈ table.map Prod.fst :=
  List.mem_map.mpr ⟨(key, value), member, rfl⟩

namespace Accumulated

theorem nothing : Accumulated ([] : List (Key × Value)) [] :=
  ⟨List.nodup_nil, fun _ _ => ⟨nofun, nofun⟩⟩

variable {table writes : List (Key × Value)} (kept : Accumulated table writes) (key : Key)
  (value : Value)

include kept

/-- The new value stands where the old one stood. -/
theorem replace (present : key ∈ table.map Prod.fst) :
    Accumulated (table.map fun entry => if entry.1 = key then (key, value) else entry)
      (writes ++ [(key, value)]) where
  once := by
    have keys : (table.map fun entry => if entry.1 = key then (key, value) else entry).map
        Prod.fst = table.map Prod.fst := by
      rw [List.map_map]
      apply List.map_congr_left
      intro entry _
      by_cases same : entry.1 = key
      · exact (congrArg Prod.fst (if_pos same)).trans same.symm
      · exact congrArg Prod.fst (if_neg same)
    rw [keys]
    exact kept.once
  last := by
    intro other stored
    rw [lastWritten_append, List.mem_map]
    by_cases same : key = other
    · rw [if_pos same]
      constructor
      · rintro ⟨entry, _, written⟩
        by_cases here : entry.1 = key
        · rw [if_pos here] at written
          exact congrArg some (Prod.mk.inj written).2
        · rw [if_neg here] at written
          exact absurd ((congrArg Prod.fst written).trans same.symm) here
      · intro written
        rcases List.mem_map.mp present with ⟨entry, member, here⟩
        exact ⟨entry, member, (if_pos here).trans (by rw [same, Option.some.inj written])⟩
    · rw [if_neg same, ← kept.last]
      constructor
      · rintro ⟨entry, member, written⟩
        by_cases here : entry.1 = key
        · rw [if_pos here] at written
          exact absurd (Prod.mk.inj written).1 same
        · rw [if_neg here] at written
          exact written ▸ member
      · exact fun member => ⟨_, member, if_neg fun here => same here.symm⟩

/-- A new entry in front is right if the key is new. -/
theorem cons_iff :
    Accumulated ((key, value) :: table) (writes ++ [(key, value)]) ↔
      key ∉ table.map Prod.fst := by
  constructor
  · exact fun longer => (List.nodup_cons.mp longer.once).1
  · refine fun new => ⟨List.nodup_cons.mpr ⟨new, kept.once⟩, fun other stored => ?_⟩
    rw [lastWritten_append, List.mem_cons]
    by_cases same : key = other
    · rw [if_pos same]
      constructor
      · rintro (here | member)
        · exact congrArg some (Prod.mk.inj here).2.symm
        · exact absurd (same ▸ key_mem_of_mem member) new
      · exact fun written => .inl (by rw [same, Option.some.inj written])
    · rw [if_neg same, ← kept.last]
      exact ⟨fun found => found.resolve_left fun here => same (Prod.mk.inj here).1.symm, .inr⟩

/-- Nothing needs to be done if the entry is there. -/
theorem unchanged_iff :
    Accumulated table (writes ++ [(key, value)]) ↔ (key, value) ∈ table := by
  constructor
  · intro still
    rw [still.last, lastWritten_append, if_pos rfl]
  · refine fun member => ⟨kept.once, fun other stored => ?_⟩
    rw [lastWritten_append]
    by_cases same : key = other
    · rw [if_pos same, kept.last, ← same, (kept.last key value).mp member]
    · rw [if_neg same, kept.last]

omit kept in
/-- An entry behind the first in the place of all that stood there. -/
theorem behind_first_iff {first : Key × Value} {rest : List (Key × Value)}
    (kept : Accumulated (first :: rest) writes) :
    Accumulated [first, (key, value)] (writes ++ [(key, value)]) ↔
      first.1 ≠ key ∧ ∀ entry ∈ rest, entry.1 = key := by
  constructor
  · intro short
    have other : first.1 ≠ key := fun same =>
      (List.nodup_cons.mp short.once).1 (List.mem_singleton.mpr same)
    refine ⟨other, fun entry member => ?_⟩
    by_contra different
    have stored := (kept.last entry.1 entry.2).mp (List.mem_cons_of_mem _ member)
    have still : (entry.1, entry.2) ∈ [first, (key, value)] := by
      rw [short.last, lastWritten_append, if_neg (Ne.symm different), stored]
    rcases List.mem_cons.mp still with here | behind
    · refine (List.nodup_cons.mp kept.once).1 (List.mem_map.mpr ⟨entry, member, ?_⟩)
      exact congrArg Prod.fst here
    · exact different (Prod.mk.inj (List.mem_singleton.mp behind)).1
  · rintro ⟨other, all⟩
    refine ⟨List.nodup_cons.mpr ⟨fun member => other (List.mem_singleton.mp member),
      List.nodup_singleton key⟩, fun name stored => ?_⟩
    rw [lastWritten_append, List.mem_cons, List.mem_singleton]
    by_cases same : key = name
    · rw [if_pos same]
      constructor
      · rintro (here | here)
        · exact absurd (same ▸ congrArg Prod.fst here.symm) other
        · exact congrArg some (Prod.mk.inj here).2.symm
      · exact fun written => .inr (by rw [same, Option.some.inj written])
    · rw [if_neg same, ← kept.last, List.mem_cons]
      constructor
      · rintro (here | here)
        · exact .inl here
        · exact absurd (Prod.mk.inj here).1.symm same
      · rintro (here | member)
        · exact .inl here
        · exact absurd (all _ member).symm same

end Accumulated

end Library
