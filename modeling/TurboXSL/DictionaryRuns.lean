import TurboXSL.Library.Objects
import TurboXSL.Dictionary

namespace TurboXSL

open Library

/-!
# Runs of dictionaries

Three objects answer the same calls: a map of byte strings, the dictionary with
counters that do not end, and the dictionary as it lies in memory.  The first
is what the second stands for in every run; the second is what the third does
as long as the capacity fits its 32 bits.
-/

variable {Data : Type}

/-- The calls of a dictionary. -/
inductive DictCall (Data : Type) where
  | add (name : Bytes) (data : Data)
  | replace (name : Bytes) (data : Data)
  | find (name : Bytes)

/-- What they return; what is not found is NULL. -/
inductive DictAnswer (Data : Type) where
  | added (absent : Bool)
  | replaced
  | found (data : Option Data)

/-- A map of byte strings, which is what a dictionary is for. -/
def mapStep (map : Bytes → Option Data) :
    DictCall Data → Option ((Bytes → Option Data) × DictAnswer Data)
  | .add name data =>
      if (map name).isNone then some (Function.update map name (some data), .added true)
      else some (map, .added false)
  | .replace name data => some (Function.update map name (some data), .replaced)
  | .find name => some (map, .found (map name))

def dictStep (dict : XMLDict Data) : DictCall Data → Option (XMLDict Data × DictAnswer Data)
  | .add name data => (dictAdd dict name data).map fun result => (result.1, .added result.2)
  | .replace name data => some (dictReplace dict name data, .replaced)
  | .find name => (dictFind dict name).map fun found => (dict, .found found)

/-- The map of the latest entries. -/
def StandsFor (dict : XMLDict Data) (map : Bytes → Option Data) : Prop :=
  dict.Lawful ∧ dict.lookup = map

theorem standsFor_new (size : Nat) :
    StandsFor (dictNew size : XMLDict Data) fun _ => none :=
  ⟨lawful_new size, rfl⟩

/-- Adding and replacing push an entry that hides the earlier ones. -/
theorem StandsFor.push {dict : XMLDict Data} {map : Bytes → Option Data}
    (stands : StandsFor dict map) (name : Bytes) (data : Data) :
    StandsFor (dict.push name data) (Function.update map name (some data)) := by
  refine ⟨stands.1.push name data, ?_⟩
  funext other
  rw [lookup_push, stands.2]
  by_cases same : name = other
  · rw [if_pos same, same, Function.update_self]
  · rw [if_neg same, Function.update_of_ne (Ne.symm same)]

theorem StandsFor.grown {dict : XMLDict Data} {map : Bytes → Option Data}
    (stands : StandsFor dict map) : StandsFor dict.grown map := by
  refine ⟨stands.1.grown, ?_⟩
  funext name
  rw [lookup_grown, stands.2]

/-- The dictionary answers as its map does. -/
theorem dict_refines_map : Refines StandsFor (@dictStep Data) mapStep := by
  intro dict map call next answer stands served
  cases call with
  | add name data =>
      rcases dictAdd_spec stands.1 name data with ⟨after, added, lawful, looked⟩
      rw [stands.2] at added looked
      refine ⟨after, ?_⟩
      rw [dictStep, added, Option.map_some]
      rw [mapStep] at served
      cases present : map name with
      | none =>
          rw [present] at served looked
          rcases Prod.mk.inj (Option.some.inj served) with ⟨rfl, rfl⟩
          refine ⟨rfl, lawful, ?_⟩
          funext other
          rw [looked]
          by_cases same : name = other
          · rw [if_pos ⟨same, rfl⟩, same, Function.update_self]
          · rw [if_neg (fun both => same both.1), Function.update_of_ne (Ne.symm same)]
      | some old =>
          rw [present] at served looked
          rcases Prod.mk.inj (Option.some.inj served) with ⟨rfl, rfl⟩
          refine ⟨rfl, lawful, ?_⟩
          funext other
          rw [looked, if_neg (fun both => nomatch both.2)]
  | replace name data =>
      rcases Prod.mk.inj (Option.some.inj served) with ⟨rfl, rfl⟩
      exact ⟨_, rfl, stands.grown.push name data⟩
  | find name =>
      rcases Prod.mk.inj (Option.some.inj served) with ⟨rfl, rfl⟩
      refine ⟨dict, ?_, stands⟩
      rw [dictStep, dictFind_eq stands.1, stands.2]
      rfl

/-- A dictionary is a map in every run. -/
theorem dict_serves (size : Nat) (calls : List (DictCall Data)) :
    Exists fun dict => Exists fun map => Exists fun answers =>
      serveAll mapStep (fun _ => none) calls = some (map, answers) ∧
      serveAll dictStep (dictNew size) calls = some (dict, answers) ∧ StandsFor dict map := by
  have total : ∀ map : Bytes → Option Data, Exists fun result =>
      serveAll mapStep map calls = some result := by
    induction calls with
    | nil => exact fun map => ⟨_, rfl⟩
    | cons call calls inductionHypothesis =>
        intro map
        have one : Exists fun next => mapStep map call = some next := by
          cases call with
          | add name data =>
              rw [mapStep]
              split
              · exact ⟨_, rfl⟩
              · exact ⟨_, rfl⟩
          | replace name data => exact ⟨_, rfl⟩
          | find name => exact ⟨_, rfl⟩
        rcases one with ⟨next, taken⟩
        rcases inductionHypothesis next.1 with ⟨last, served⟩
        exact ⟨_, serveAll_cons_eq_some_iff.mpr ⟨_, _, _, taken, served, rfl⟩⟩
  rcases total fun _ => none with ⟨⟨map, answers⟩, served⟩
  rcases dict_refines_map.serveAll (standsFor_new size) served with ⟨dict, followed, stands⟩
  exact ⟨dict, map, answers, served, followed, stands⟩

/-! ## The dictionary in memory -/

/-- `XMLDICTENTRY` with its index of 32 bits. -/
structure DictCell (Data : Type) where
  name : Bytes
  data : Data
  next : UInt32

/-- `XMLDICT` as it lies in memory: there are places for `allocated` entries,
of which the first `used` ones have been written. -/
structure DictMemory (Data : Type) where
  entries : List (Option (DictCell Data))
  allocated : UInt32
  used : UInt32
  hash : Nat → UInt32

namespace DictMemory

/-- `dict_new` -/
def dictNew (size : UInt32) : DictMemory Data :=
  let allocated := if size = 0 then 100 else size
  { entries := List.replicate allocated.toNat none,
    allocated := allocated,
    used := 0,
    hash := fun _ => 0 }

/-- `realloc`, which keeps what was there as far as there is room. -/
def realloc (entries : List (Option (DictCell Data))) (allocated : Nat) :
    List (Option (DictCell Data)) :=
  entries.take allocated ++ List.replicate (allocated - entries.length) none

/-- The growth in `dict_add` and in `dict_replace`; the sum wraps around. -/
def grown (dict : DictMemory Data) : DictMemory Data :=
  if dict.used ≥ dict.allocated then
    let allocated := dict.allocated + 100
    { dict with allocated := allocated, entries := realloc dict.entries allocated.toNat }
  else dict

/-- The walk along a chain; the outer `none` where it reads what is not an
entry or does not end. -/
def walk (entries : List (Option (DictCell Data))) (name : Bytes) :
    Nat → UInt32 → Option (Option Data)
  | 0, h => if h = 0 then some none else none
  | fuel + 1, h =>
      if h = 0 then some none
      else do
        let cell ← (entries[h.toNat - 1]?).join
        if cell.name = name then some (some cell.data) else walk entries name fuel cell.next

/-- `dict_find` -/
def dictFind (dict : DictMemory Data) (name : Bytes) : Option (Option Data) :=
  walk dict.entries name dict.entries.length (dict.hash (bucketNumber name))

/-- The last lines of `dict_add` and of `dict_replace`; none where they write
behind the entries. -/
def push (dict : DictMemory Data) (name : Bytes) (data : Data) : Option (DictMemory Data) :=
  let d := bucketNumber name
  if dict.used.toNat < dict.entries.length then
    some { dict with
      entries := dict.entries.set dict.used.toNat (some ⟨name, data, dict.hash d⟩),
      used := dict.used + 1,
      hash := fun h => if h = d then dict.used + 1 else dict.hash h }
  else none

/-- `dict_add` -/
def dictAdd (dict : DictMemory Data) (name : Bytes) (data : Data) :
    Option (DictMemory Data × Bool) := do
  let dict := dict.grown
  match ← dict.dictFind name with
  | some _ => some (dict, false)
  | none => (dict.push name data).map (·, true)

/-- `dict_replace` -/
def dictReplace (dict : DictMemory Data) (name : Bytes) (data : Data) :
    Option (DictMemory Data) :=
  dict.grown.push name data

def step (dict : DictMemory Data) : DictCall Data → Option (DictMemory Data × DictAnswer Data)
  | .add name data => (dict.dictAdd name data).map fun result => (result.1, .added result.2)
  | .replace name data => (dict.dictReplace name data).map (·, .replaced)
  | .find name => (dict.dictFind name).map fun found => (dict, .found found)

end DictMemory

/-- The place of an entry holds it. -/
def DictCell.Holds (cell : DictCell Data) (entry : DictEntry Data) : Prop :=
  cell.name = entry.name ∧ cell.data = entry.data ∧ cell.next.toNat = entry.next

/-- The memory of a dictionary; nothing has wrapped around. -/
structure LiesIn (memory : DictMemory Data) (dict : XMLDict Data) : Prop where
  allocated : memory.allocated.toNat = dict.allocated
  used : memory.used.toNat = dict.entries.length
  places : memory.entries.length = dict.allocated
  fits : dict.entries.length ≤ dict.allocated
  holds : ∀ (i : Nat) entry, dict.entries[i]? = some entry →
    Exists fun cell : DictCell Data => memory.entries[i]? = some (some cell) ∧ cell.Holds entry
  hash : ∀ h, (memory.hash h).toNat = dict.hash h

theorem liesIn_new (size : UInt32) :
    LiesIn (DictMemory.dictNew size) (dictNew size.toNat : XMLDict Data) where
  allocated := by
    unfold DictMemory.dictNew dictNew
    dsimp only
    by_cases zero : size = 0
    · rw [zero]
      rfl
    · have positive : size.toNat ≠ 0 := fun same => zero (UInt32.toNat_inj.mp same)
      rw [if_neg zero, if_neg positive]
  used := rfl
  places := by
    unfold DictMemory.dictNew dictNew
    dsimp only
    rw [List.length_replicate]
    by_cases zero : size = 0
    · rw [zero]
      rfl
    · have positive : size.toNat ≠ 0 := fun same => zero (UInt32.toNat_inj.mp same)
      rw [if_neg zero, if_neg positive]
  fits := Nat.zero_le _
  holds := fun i entry there => by cases there
  hash := fun _ => rfl

theorem walk_end (entries : List (Option (DictCell Data))) (name : Bytes) (fuel : Nat) :
    DictMemory.walk entries name fuel 0 = some none := by
  cases fuel <;> rfl

/-- Nothing is lost where the array becomes larger. -/
theorem realloc_eq {entries : List (Option (DictCell Data))} {allocated : Nat}
    (larger : entries.length ≤ allocated) :
    DictMemory.realloc entries allocated =
      entries ++ List.replicate (allocated - entries.length) none := by
  unfold DictMemory.realloc
  rw [List.take_of_length_le larger]

namespace LiesIn

variable {memory : DictMemory Data} {dict : XMLDict Data}

/-- A walk along the entries is one along their places. -/
theorem walk (lies : LiesIn memory dict) {name : Bytes} {found : Option Data} {fuel more : Nat}
    {h : Nat} {index : UInt32} (same : index.toNat = h) (enough : fuel ≤ more)
    (walked : dictWalk dict.entries name fuel h = some found) :
    DictMemory.walk memory.entries name more index = some found := by
  induction fuel generalizing h index more with
  | zero =>
      cases h with
      | succ h => cases walked
      | zero =>
          rw [(UInt32.toNat_inj.mp same : index = 0), walk_end]
          exact walked
  | succ fuel inductionHypothesis =>
      cases h with
      | zero =>
          rw [(UInt32.toNat_inj.mp same : index = 0), walk_end]
          exact walked
      | succ h =>
          have positive : index ≠ 0 := fun zero => by
            rw [zero] at same
            cases same
          cases more with
          | zero => cases enough
          | succ more =>
              rw [DictMemory.walk, if_neg positive, same, Nat.add_sub_cancel]
              rw [dictWalk, Option.bind_eq_bind, Option.bind_eq_some_iff] at walked
              rcases walked with ⟨entry, there, continued⟩
              rcases lies.holds h entry there with ⟨cell, place, held, data, next⟩
              rw [place]
              change (if cell.name = name then _ else _) = _
              rw [held, data]
              by_cases equal : entry.name = name
              · rw [if_pos equal] at continued ⊢
                exact continued
              · rw [if_neg equal] at continued ⊢
                exact inductionHypothesis next (Nat.le_of_succ_le_succ enough) continued

theorem dictFind (lies : LiesIn memory dict) {name : Bytes} {found : Option Data}
    (searched : TurboXSL.dictFind dict name = some found) :
    memory.dictFind name = some found :=
  lies.walk (lies.hash _) (lies.places ▸ lies.fits) searched

/-- Growing keeps every entry, and there is room for one more. -/
theorem grown (lies : LiesIn memory dict) (room : dict.grown.allocated < 2 ^ 32) :
    LiesIn memory.grown dict.grown ∧ dict.grown.entries.length < dict.grown.allocated := by
  unfold DictMemory.grown XMLDict.grown at *
  have full : memory.used ≥ memory.allocated ↔ dict.allocated ≤ dict.entries.length := by
    rw [← lies.allocated, ← lies.used]
    exact UInt32.le_iff_toNat_le
  by_cases large : dict.allocated ≤ dict.entries.length
  · rw [if_pos large] at room ⊢
    rw [if_pos (full.mpr large)]
    have sum : (memory.allocated + 100).toNat = dict.allocated + 100 := by
      rw [UInt32.toNat_add, lies.allocated]
      exact Nat.mod_eq_of_lt room
    have larger : memory.entries.length ≤ (memory.allocated + 100).toNat := by
      rw [sum, lies.places]
      exact Nat.le_add_right _ _
    dsimp only
    rw [realloc_eq larger]
    refine ⟨⟨sum, lies.used, ?_, ?_, ?_, lies.hash⟩, ?_⟩
    · rw [List.length_append, List.length_replicate, Nat.add_sub_cancel' larger]
      exact sum
    · exact Nat.le_trans lies.fits (Nat.le_add_right _ _)
    · intro i entry there
      rcases lies.holds i entry there with ⟨cell, place, held⟩
      have below : i < memory.entries.length := (List.getElem?_eq_some_iff.mp place).1
      exact ⟨cell, (List.getElem?_append_left below).trans place, held⟩
    · exact Nat.lt_of_le_of_lt lies.fits (Nat.lt_add_of_pos_right (by decide))
  · rw [if_neg large, if_neg (fun other => large (full.mp other))]
    exact ⟨lies, Nat.not_le.mp large⟩

/-- A new entry takes the next place. -/
theorem push (lies : LiesIn memory dict) (free : dict.entries.length < dict.allocated)
    (room : dict.allocated < 2 ^ 32) (name : Bytes) (data : Data) :
    Exists fun after => memory.push name data = some after ∧
      LiesIn after (dict.push name data) := by
  have small : memory.used.toNat < memory.entries.length := by
    rw [lies.used, lies.places]
    exact free
  have next : (memory.used + 1).toNat = dict.entries.length + 1 := by
    rw [UInt32.toNat_add, lies.used]
    exact Nat.mod_eq_of_lt (Nat.lt_of_le_of_lt free room)
  unfold DictMemory.push
  dsimp only
  rw [if_pos small]
  refine ⟨_, rfl, lies.allocated, ?_, ?_, ?_, ?_, ?_⟩
  · change (memory.used + 1).toNat = (dict.entries ++ [_]).length
    rw [next, List.length_append]
    rfl
  · rw [List.length_set]
    exact lies.places
  · unfold XMLDict.push
    dsimp only
    rw [List.length_append]
    exact free
  · intro i entry there
    dsimp only
    unfold XMLDict.push at there
    dsimp only at there
    rw [List.getElem?_append] at there
    by_cases old : i < dict.entries.length
    · rw [if_pos old] at there
      rcases lies.holds i entry there with ⟨cell, place, held⟩
      rw [lies.used, List.getElem?_set_ne (Nat.ne_of_gt old)]
      exact ⟨cell, place, held⟩
    · rw [if_neg old, List.getElem?_singleton] at there
      have last : i = dict.entries.length := by
        by_contra other
        rw [if_neg (by omega)] at there
        cases there
      subst last
      rw [Nat.sub_self, if_pos rfl] at there
      refine ⟨⟨name, data, memory.hash (bucketNumber name)⟩, ?_, ?_⟩
      · rw [lies.used]
        exact List.getElem?_set_self (lies.used ▸ small)
      · rw [← Option.some.inj there]
        exact ⟨rfl, rfl, lies.hash _⟩
  · intro h
    unfold XMLDict.push
    dsimp only
    split
    · exact next
    · exact lies.hash h

end LiesIn

/-- What `dict_add` can do. -/
theorem dictAdd_cases {dict next : XMLDict Data} {name : Bytes} {data : Data} {absent : Bool}
    (added : dictAdd dict name data = some (next, absent)) :
    (Exists fun old => dictFind dict.grown name = some (some old) ∧ next = dict.grown ∧
        absent = false) ∨
      (dictFind dict.grown name = some none ∧ next = dict.grown.push name data ∧
        absent = true) := by
  rw [dictAdd, Option.bind_eq_bind, Option.bind_eq_some_iff] at added
  rcases added with ⟨found, searched, result⟩
  cases found with
  | none =>
      rcases Prod.mk.inj (Option.some.inj result) with ⟨rfl, rfl⟩
      exact .inr ⟨searched, rfl, rfl⟩
  | some old =>
      rcases Prod.mk.inj (Option.some.inj result) with ⟨rfl, rfl⟩
      exact .inl ⟨old, searched, rfl, rfl⟩

/-- As long as the capacity fits, the memory does what the dictionary does. -/
theorem memory_refines_dict :
    Refines LiesIn (@DictMemory.step Data)
      (within (fun dict => dict.allocated < 2 ^ 32) dictStep) := by
  intro memory dict call next answer lies served
  rcases within_eq_some_iff.mp served with ⟨served, room⟩
  cases call with
  | add name data =>
      rcases Option.map_eq_some_iff.mp served with ⟨⟨after, absent⟩, added, same⟩
      rcases Prod.mk.inj same with ⟨rfl, rfl⟩
      rw [DictMemory.step, DictMemory.dictAdd]
      rcases dictAdd_cases added with ⟨old, searched, rfl, rfl⟩ | ⟨searched, rfl, rfl⟩
      · have grown := (lies.grown room).1
        refine ⟨memory.grown, ?_, grown⟩
        rw [grown.dictFind searched]
        rfl
      · rcases lies.grown room with ⟨grown, free⟩
        rcases grown.push free room name data with ⟨after, pushed, there⟩
        refine ⟨after, ?_, there⟩
        rw [grown.dictFind searched]
        change ((memory.grown.push name data).map _).map _ = _
        rw [pushed]
        rfl
  | replace name data =>
      rcases Prod.mk.inj (Option.some.inj served) with ⟨rfl, rfl⟩
      rcases lies.grown room with ⟨grown, free⟩
      rcases grown.push free room name data with ⟨after, pushed, there⟩
      refine ⟨after, ?_, there⟩
      rw [DictMemory.step, DictMemory.dictReplace, pushed]
      rfl
  | find name =>
      rcases Option.map_eq_some_iff.mp served with ⟨found, searched, same⟩
      rcases Prod.mk.inj same with ⟨rfl, rfl⟩
      refine ⟨memory, ?_, lies⟩
      rw [DictMemory.step, lies.dictFind searched]
      rfl

/-- The capacity never shrinks. -/
theorem dictStep_allocated {dict next : XMLDict Data} {call : DictCall Data}
    {answer : DictAnswer Data} (served : dictStep dict call = some (next, answer)) :
    dict.allocated ≤ next.allocated := by
  have grown : dict.allocated ≤ dict.grown.allocated := by
    unfold XMLDict.grown
    split
    · exact Nat.le_add_right _ _
    · exact Nat.le_refl _
  cases call with
  | add name data =>
      rcases Option.map_eq_some_iff.mp served with ⟨⟨after, absent⟩, added, same⟩
      rcases Prod.mk.inj same with ⟨rfl, rfl⟩
      rcases dictAdd_cases added with ⟨old, searched, rfl, rfl⟩ | ⟨searched, rfl, rfl⟩
      · exact grown
      · exact grown
  | replace name data =>
      rcases Prod.mk.inj (Option.some.inj served) with ⟨rfl, rfl⟩
      exact grown
  | find name =>
      rcases Option.map_eq_some_iff.mp served with ⟨found, searched, same⟩
      rcases Prod.mk.inj same with ⟨rfl, rfl⟩
      exact Nat.le_refl _

theorem memory_serves (size : UInt32) {calls : List (DictCall Data)} {dict : XMLDict Data}
    {answers : List (DictAnswer Data)}
    (served : serveAll dictStep (dictNew size.toNat) calls = some (dict, answers))
    (room : dict.allocated < 2 ^ 32) : Exists fun memory =>
      serveAll DictMemory.step (DictMemory.dictNew size) calls = some (memory, answers) ∧
        LiesIn memory dict := by
  have back (before : XMLDict Data) (call : DictCall Data) (next : XMLDict Data)
      (answer : DictAnswer Data) (taken : dictStep before call = some (next, answer))
      (small : next.allocated < 2 ^ 32) : before.allocated < 2 ^ 32 :=
    Nat.lt_of_le_of_lt (dictStep_allocated taken) small
  exact memory_refines_dict.serveAll (liesIn_new size) (serveAll_within back served room).1

/-- A dictionary in memory is a map of byte strings, in every run in which its
capacity, counted without end, stays below what 32 bits hold. -/
theorem dictionary_is_a_map (size : UInt32) (calls : List (DictCall Data)) :
    Exists fun dict => Exists fun map => Exists fun answers =>
      serveAll mapStep (fun _ => none) calls = some (map, answers) ∧
      serveAll dictStep (dictNew size.toNat) calls = some (dict, answers) ∧
      (dict.allocated < 2 ^ 32 → Exists fun memory =>
        serveAll DictMemory.step (DictMemory.dictNew size) calls = some (memory, answers)) := by
  rcases dict_serves size.toNat calls with ⟨dict, map, answers, served, followed, _⟩
  refine ⟨dict, map, answers, served, followed, fun room => ?_⟩
  rcases memory_serves size followed room with ⟨memory, done, _⟩
  exact ⟨memory, done⟩

/-- A key that is added, replaced and found in a dictionary for one entry. -/
theorem dictionary_is_a_map_growing :
    Exists fun memory => serveAll DictMemory.step (DictMemory.dictNew 1)
      [.add (lit "a") 1, .replace (lit "a") 2, .add (lit "a") 3, .find (lit "a"), .find []] =
        some (memory, [.added true, .replaced, .added false, .found (some 2), .found none]) := by
  rcases dictionary_is_a_map 1 [.add (lit "a") 1, .replace (lit "a") 2, .add (lit "a") 3,
    .find (lit "a"), .find []] with ⟨dict, map, answers, served, followed, done⟩
  have counted : Exists fun grown : XMLDict Nat =>
      serveAll dictStep (dictNew (1 : UInt32).toNat) [.add (lit "a") 1, .replace (lit "a") 2,
        .add (lit "a") 3, .find (lit "a"), .find []] = some (grown,
          [.added true, .replaced, .added false, .found (some 2), .found none]) ∧
      grown.allocated = 101 := ⟨_, rfl, rfl⟩
  rcases counted with ⟨grown, run, allocated⟩
  rcases Prod.mk.inj (Option.some.inj (followed.symm.trans run)) with ⟨rfl, rfl⟩
  apply done
  rw [allocated]
  decide

/-! ## A capacity that wraps around -/

theorem replaces_fill (name : Bytes) (data : Data) (n : Nat) {dict : XMLDict Data}
    (room : dict.entries.length + n ≤ dict.allocated) :
    Exists fun full => Exists fun answers =>
      serveAll dictStep dict (List.replicate n (.replace name data)) = some (full, answers) ∧
      full.allocated = dict.allocated ∧ full.entries.length = dict.entries.length + n := by
  induction n generalizing dict with
  | zero => exact ⟨dict, [], rfl, rfl, rfl⟩
  | succ n inductionHypothesis =>
      have same : dict.grown = dict := by
        unfold XMLDict.grown
        exact if_neg (by omega)
      have length : (dict.push name data).entries.length = dict.entries.length + 1 :=
        List.length_append
      have allocated : (dict.push name data).allocated = dict.allocated := rfl
      have small : (dict.push name data).entries.length + n ≤ (dict.push name data).allocated := by
        rw [length, allocated, Nat.add_assoc, Nat.add_comm 1 n]
        exact room
      rcases inductionHypothesis small with ⟨full, answers, served, sized, counted⟩
      refine ⟨full, .replaced :: answers, ?_, sized, ?_⟩
      · rw [List.replicate_succ]
        refine serveAll_cons_eq_some_iff.mpr ⟨_, _, _, ?_, served, rfl⟩
        rw [dictStep, dictReplace, same]
      · rw [counted, length]
        omega

/-- A dictionary for 4294967295 entries that gets one more: the array shrinks
to 99 entries, and the new one is written far behind them. -/
theorem full_dictionary_shrinks :
    let calls := List.replicate 4294967295 (.replace (lit "key") 1) ++ [.replace (lit "key") 2]
    serveAll DictMemory.step (DictMemory.dictNew 4294967295) calls = none ∧
      Exists fun result => serveAll mapStep (fun _ => none) calls = some result := by
  intro calls
  constructor
  · have fill := @replaces_fill Nat (lit "key") 1 4294967295
      (dictNew (4294967295 : UInt32).toNat) (Nat.le_of_eq (Nat.zero_add _))
    rcases fill with ⟨full, answers, served, sized, counted⟩
    have allocated : full.allocated = 4294967295 := sized
    have length : full.entries.length = 4294967295 := counted.trans (Nat.zero_add _)
    have room : full.allocated < 2 ^ 32 := by
      rw [allocated]
      decide
    rcases memory_serves 4294967295 served room with ⟨memory, filled, lies⟩
    rw [serveAll_append, filled, Option.bind_some]
    have capacity : memory.allocated = 4294967295 :=
      UInt32.toNat_inj.mp (lies.allocated.trans allocated)
    have used : memory.used = 4294967295 := UInt32.toNat_inj.mp (lies.used.trans length)
    have stuck : memory.dictReplace (lit "key") 2 = none := by
      unfold DictMemory.dictReplace DictMemory.grown
      rw [capacity, used, if_pos (by decide)]
      apply if_neg
      rw [Nat.not_lt]
      unfold DictMemory.realloc
      rw [List.length_append, List.length_take, List.length_replicate, lies.places, allocated]
      exact (by decide : min ((4294967295 + 100 : UInt32).toNat) 4294967295 +
        ((4294967295 + 100 : UInt32).toNat - 4294967295) ≤ (4294967295 : UInt32).toNat)
    rw [serveAll, DictMemory.step, stuck]
    rfl
  · rcases dict_serves 0 calls with ⟨_, map, answers, served, _⟩
    exact ⟨_, served⟩

end TurboXSL
