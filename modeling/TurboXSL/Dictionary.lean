import TurboXSL.Output

namespace TurboXSL

open Library Output

/-!
# Dictionaries

`xmldict.c`: entries in the order in which they were added, and for every hash
value the chain of the entries that have it, the latest first.  A chain is
linked by indices that are one too large, so that zero ends it.
-/

/-- `XMLDICTENTRY`; the data is a pointer that is not NULL. -/
structure DictEntry (Data : Type) where
  name : Bytes
  data : Data
  next : Nat

/-- `XMLDICT`; the entries in use. -/
structure XMLDict (Data : Type) where
  entries : List (DictEntry Data)
  allocated : Nat
  hash : Nat → Nat

variable {Data : Type}

/-- `hash_function`, which reads up to a zero byte. -/
def hashFunction (str : Bytes) : UInt64 :=
  (untilNul str).foldl (fun hash c => c.toUInt64 + (hash <<< 6) + (hash <<< 16) - hash) 0

/-- `bucket_number` -/
def bucketNumber (str : Bytes) : Nat := (hashFunction str % 127).toNat

/-- `dict_new` -/
def dictNew (size : Nat) : XMLDict Data where
  entries := []
  allocated := if size = 0 then 100 else size
  hash := fun _ => 0

/-- The walk along a chain in `dict_find` and in `dict_add`; the outer `none`
where it leaves the entries or does not end. -/
def dictWalk (entries : List (DictEntry Data)) (name : Bytes) : Nat → Nat → Option (Option Data)
  | _, 0 => some none
  | 0, _ + 1 => none
  | fuel + 1, h + 1 => do
      let entry ← entries[h]?
      if entry.name = name then some (some entry.data) else dictWalk entries name fuel entry.next

/-- `dict_find` -/
def dictFind (dict : XMLDict Data) (name : Bytes) : Option (Option Data) :=
  dictWalk dict.entries name dict.entries.length (dict.hash (bucketNumber name))

/-- `realloc` of the entries where they are full. -/
def XMLDict.grown (dict : XMLDict Data) : XMLDict Data :=
  if dict.allocated ≤ dict.entries.length then { dict with allocated := dict.allocated + 100 }
  else dict

/-- The last lines of `dict_add` and of `dict_replace`. -/
def XMLDict.push (dict : XMLDict Data) (name : Bytes) (data : Data) : XMLDict Data :=
  let d := bucketNumber name
  { dict with
    entries := dict.entries ++ [⟨name, data, dict.hash d⟩],
    hash := fun h => if h = d then dict.entries.length + 1 else dict.hash h }

/-- `dict_add`, with what it returns. -/
def dictAdd (dict : XMLDict Data) (name : Bytes) (data : Data) : Option (XMLDict Data × Bool) := do
  let dict := dict.grown
  match ← dictFind dict name with
  | some _ => some (dict, false)
  | none => some (dict.push name data, true)

/-- `dict_replace` -/
def dictReplace (dict : XMLDict Data) (name : Bytes) (data : Data) : XMLDict Data :=
  dict.grown.push name data

/-! ## The map that a dictionary is -/

/-- The latest entry of the name. -/
def XMLDict.lookup (dict : XMLDict Data) (name : Bytes) : Option Data :=
  (dict.entries.reverse.find? fun entry => entry.name = name).map DictEntry.data

/-- How the entries and the chains come about. -/
inductive Threaded : List (DictEntry Data) → (Nat → Nat) → Prop where
  | nil : Threaded [] fun _ => 0
  | push {entries : List (DictEntry Data)} {hash : Nat → Nat} (name : Bytes) (data : Data)
      (earlier : Threaded entries hash) :
      Threaded (entries ++ [⟨name, data, hash (bucketNumber name)⟩])
        fun h => if h = bucketNumber name then entries.length + 1 else hash h

/-- The chains of the dictionary are in order. -/
def XMLDict.Lawful (dict : XMLDict Data) : Prop := Threaded dict.entries dict.hash

namespace Threaded

variable {entries : List (DictEntry Data)} {hash : Nat → Nat}

theorem bounded (threaded : Threaded entries hash) (h : Nat) : hash h ≤ entries.length := by
  induction threaded with
  | nil => exact Nat.le_refl 0
  | push name data _ inductionHypothesis =>
      rw [List.length_append, List.length_singleton]
      dsimp only
      split
      · exact Nat.le_refl _
      · exact Nat.le_succ_of_le inductionHypothesis

/-- Links lead to earlier entries. -/
theorem decreasing (threaded : Threaded entries hash) {i : Nat} {entry : DictEntry Data}
    (there : entries[i]? = some entry) : entry.next ≤ i := by
  induction threaded with
  | nil => cases there
  | @push entries hash name data earlier inductionHypothesis =>
      rcases Nat.lt_trichotomy i entries.length with below | same | above
      · rw [List.getElem?_append_left below] at there
        exact inductionHypothesis there
      · subst same
        rw [List.getElem?_concat_length] at there
        cases there
        exact earlier.bounded _
      · rw [List.getElem?_eq_none (by rw [List.length_append]; exact above)] at there
        cases there

/-- A walk along old entries does not see a new one. -/
theorem walk_push (threaded : Threaded entries hash) (new : DictEntry Data) (name : Bytes)
    (fuel : Nat) {h : Nat} (old : h ≤ entries.length) :
    dictWalk (entries ++ [new]) name fuel h = dictWalk entries name fuel h := by
  induction fuel generalizing h with
  | zero => cases h <;> rfl
  | succ fuel inductionHypothesis =>
      cases h with
      | zero => rfl
      | succ h =>
          have below : h < entries.length := old
          unfold dictWalk
          rw [List.getElem?_append_left below, List.getElem?_eq_getElem below]
          change (if _ then _ else _) = if _ then _ else _
          split
          · rfl
          · have link := threaded.decreasing (List.getElem?_eq_getElem below)
            exact inductionHypothesis (Nat.le_trans link (Nat.le_of_lt below))

/-- The walk ends, at the latest entry of the name. -/
theorem walk_eq (threaded : Threaded entries hash) (name : Bytes) {fuel : Nat}
    (enough : entries.length ≤ fuel) :
    dictWalk entries name fuel (hash (bucketNumber name)) =
      some ((entries.reverse.find? fun entry => entry.name = name).map DictEntry.data) := by
  induction threaded generalizing fuel with
  | nil => cases fuel <;> rfl
  | @push entries hash other data earlier inductionHypothesis =>
      rw [List.length_append, List.length_singleton] at enough
      rw [List.reverse_append, List.reverse_singleton, List.singleton_append, List.find?_cons]
      have before := fun {fuel} (enough : entries.length ≤ fuel) =>
        (earlier.walk_push ⟨other, data, hash (bucketNumber other)⟩ name fuel
          (earlier.bounded (bucketNumber name))).trans (inductionHypothesis enough)
      by_cases bucket : bucketNumber name = bucketNumber other
      · cases fuel with
        | zero => cases enough
        | succ fuel =>
            dsimp only
            rw [if_pos bucket]
            unfold dictWalk
            rw [List.getElem?_concat_length]
            change (if other = name then _ else dictWalk _ name fuel (hash (bucketNumber other))) = _
            by_cases same : other = name
            · rw [if_pos same, decide_eq_true same]
              rfl
            · rw [if_neg same, decide_eq_false same]
              have later := before (Nat.le_of_succ_le_succ enough)
              rw [bucket] at later
              exact later
      · have different : other ≠ name := fun same => bucket (same ▸ rfl)
        dsimp only
        rw [if_neg bucket, decide_eq_false different]
        exact before (Nat.le_of_succ_le enough)

end Threaded

section Laws

variable {dict : XMLDict Data}

theorem lawful_new (size : Nat) : (dictNew size : XMLDict Data).Lawful := .nil

@[simp] theorem lookup_new (size : Nat) (name : Bytes) :
    (dictNew size : XMLDict Data).lookup name = none := rfl

/-- `dict_find` finds the latest entry of the name. -/
theorem dictFind_eq (lawful : dict.Lawful) (name : Bytes) :
    dictFind dict name = some (dict.lookup name) :=
  Threaded.walk_eq lawful name (Nat.le_refl _)

theorem XMLDict.Lawful.grown (lawful : dict.Lawful) : dict.grown.Lawful := by
  unfold XMLDict.grown
  split
  · exact lawful
  · exact lawful

@[simp] theorem lookup_grown (name : Bytes) : dict.grown.lookup name = dict.lookup name := by
  unfold XMLDict.grown
  split <;> rfl

theorem XMLDict.Lawful.push (lawful : dict.Lawful) (name : Bytes) (data : Data) :
    (dict.push name data).Lawful :=
  Threaded.push name data lawful

theorem lookup_push (name other : Bytes) (data : Data) :
    (dict.push name data).lookup other = if name = other then some data else dict.lookup other := by
  unfold XMLDict.lookup XMLDict.push
  dsimp only
  rw [List.reverse_append, List.reverse_singleton, List.singleton_append, List.find?_cons]
  by_cases same : name = other
  · rw [if_pos same, decide_eq_true same]
    rfl
  · rw [if_neg same, decide_eq_false same]

/-- `dict_add` adds what is absent, and nothing else. -/
theorem dictAdd_spec (lawful : dict.Lawful) (name : Bytes) (data : Data) :
    Exists fun after => dictAdd dict name data = some (after, (dict.lookup name).isNone) ∧
      after.Lawful ∧ ∀ other, after.lookup other =
        if name = other ∧ dict.lookup name = none then some data else dict.lookup other := by
  have found := dictFind_eq lawful.grown name
  rw [lookup_grown] at found
  unfold dictAdd
  dsimp only
  rw [found]
  cases present : dict.lookup name with
  | some old =>
      refine ⟨dict.grown, rfl, lawful.grown, fun other => ?_⟩
      rw [if_neg (fun both => nomatch both.2), lookup_grown]
  | none =>
      refine ⟨dict.grown.push name data, rfl, lawful.grown.push name data, fun other => ?_⟩
      rw [lookup_push, lookup_grown]
      simp only [and_true]

end Laws

end TurboXSL
