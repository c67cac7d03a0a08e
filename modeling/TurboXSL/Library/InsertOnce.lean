import Mathlib.Data.List.Find

namespace Library

/-!
# Maps that keep the first value

A key that is in the map cannot be put again: the map says so and stays as it
is.  What is then found under a key is what came with it first.
-/

universe u v w

variable {Key : Type u} {Value : Type v} [DecidableEq Key]

/-- A map with `get` and `put`, by what they answer. -/
structure InsertOnce (Key : Type u) (Value : Type v) [DecidableEq Key] where
  Table : Type w
  empty : Table
  get : Table → Key → Option Value
  put : Table → Key → Value → Bool × Table
  get_empty : ∀ key, get empty key = none
  put_new : ∀ table key value, get table key = none →
    (put table key value).1 = true ∧
      get (put table key value).2 = Function.update (get table) key (some value)
  put_old : ∀ table key value, (get table key).isSome →
    (put table key value).1 = false ∧ get (put table key value).2 = get table

namespace InsertOnce

variable (map : InsertOnce Key Value)

theorem get_put (table : map.Table) (key other : Key) (value : Value) :
    map.get (map.put table key value).2 other =
      (map.get table other).or (if key = other then some value else none) := by
  cases present : map.get table key with
  | none =>
      rw [(map.put_new table key value present).2]
      by_cases same : key = other
      · rw [← same, Function.update_self, present, if_pos rfl, Option.none_or]
      · rw [Function.update_of_ne (Ne.symm same), if_neg same, Option.or_none]
  | some old =>
      rw [(map.put_old table key value (present ▸ rfl)).2]
      by_cases same : key = other
      · rw [← same, present, Option.some_or]
      · rw [if_neg same, Option.or_none]

/-- The map after all of these have been put. -/
def putAll (table : map.Table) (puts : List (Key × Value)) : map.Table :=
  puts.foldl (fun table entry => (map.put table entry.1 entry.2).2) table

theorem get_putAll (table : map.Table) (puts : List (Key × Value)) (key : Key) :
    map.get (map.putAll table puts) key =
      (map.get table key).or ((puts.find? (·.1 = key)).map Prod.snd) := by
  induction puts generalizing table with
  | nil => exact (Option.or_none).symm
  | cons entry puts inductionHypothesis =>
      have first := inductionHypothesis (map.put table entry.1 entry.2).2
      rw [get_put, Option.or_assoc] at first
      refine first.trans (congrArg ((map.get table key).or ·) ?_)
      by_cases same : entry.1 = key
      · rw [if_pos same, Option.some_or, List.find?_cons, decide_eq_true same]
        rfl
      · rw [if_neg same, Option.none_or, List.find?_cons, decide_eq_false same]

/-- What is found under a key was put with it first. -/
theorem get_putAll_empty (puts : List (Key × Value)) (key : Key) :
    map.get (map.putAll map.empty puts) key = (puts.find? (·.1 = key)).map Prod.snd := by
  rw [get_putAll, get_empty, Option.none_or]

end InsertOnce

/-- Such a map, as a list of its entries. -/
def association (Key : Type u) (Value : Type v) [DecidableEq Key] [BEq Key] [LawfulBEq Key] :
    InsertOnce Key Value where
  Table := List (Key × Value)
  empty := []
  get := fun table key => table.lookup key
  put := fun table key value =>
    if (table.lookup key).isSome then (false, table) else (true, (key, value) :: table)
  get_empty := fun _ => rfl
  put_new := by
    intro table key value absent
    rw [absent]
    refine ⟨rfl, ?_⟩
    funext other
    by_cases same : other = key
    · rw [same, Function.update_self]
      exact List.lookup_cons_self
    · rw [Function.update_of_ne same]
      change List.lookup other ((key, value) :: table) = _
      rw [List.lookup_cons, beq_false_of_ne same]
  put_old := by
    intro table key value present
    rw [if_pos present]
    exact ⟨rfl, rfl⟩

end Library
