import TurboXSL.ConcurrentDictionary
import TurboXSL.Parse

namespace TurboXSL
namespace UrlCache

open Library

/-!
# The cache of addresses

`ltr:url_code` joins its arguments and asks for the address of the result.  All
contexts share the table of addresses; its keys are the joined arguments with
the prefix of the context written in front of them, and nothing between.
-/

/-- What a `TRANSFORM_CONTEXT` has for addresses; the parameters as
`dict_find` reads them. -/
structure UrlContext where
  cacheKeyPrefix : Option CString
  urlCodeParameters : Bytes → Option CString

/-- What an argument adds to the buffer, in front of the comma. -/
def urlArgument (pctx : UrlContext) : Option CString → Option Bytes
  | none => some []
  | some str =>
      match str.bytes with
      | c :: name =>
          if c = '-'.toUInt8 then
            (pctx.urlCodeParameters name).map fun value => name ++ [','.toUInt8] ++ value.bytes
          else some (c :: name)
      | [] => some []

/-- The buffer; a parameter that is not found leaves no comma either. -/
def joinArguments (pctx : UrlContext) : List (Option CString) → Bytes
  | [] => []
  | str :: more =>
      (match urlArgument pctx str with
        | none => []
        | some text => text ++ if more = [] then [] else [','.toUInt8]) ++
      joinArguments pctx more

/-- The prefix as it is written. -/
def UrlContext.front (pctx : UrlContext) : Bytes := (pctx.cacheKeyPrefix.map CString.bytes).getD []

/-- `cache_key`; an empty buffer has none. -/
def cacheKey (pctx : UrlContext) (args : List (Option CString)) : Option Bytes :=
  let buffer := joinArguments pctx args
  if buffer = [] then none else some (pctx.front ++ buffer)

/-- What a `GLOBAL_CTX` has for addresses: the Perl function, and what
`external_cache_get` finds. -/
structure UrlServices where
  perlUrlcode : Option (Bytes → Option Bytes)
  externalCacheGet : Bytes → Option Bytes

section Tables

variable (ck : InsertOnce Bytes (Option Bytes))

/-- `xf_urlcode`: the address, and the table afterwards. -/
def xfUrlcode (gctx : UrlServices) (urldict : ck.Table) (pctx : UrlContext)
    (args : List (Option CString)) : Option Bytes × ck.Table :=
  match args, gctx.perlUrlcode with
  | [], _ | _, none => (some (lit "/"), urldict)
  | args, some perl =>
      match cacheKey pctx args with
      | none => (some (lit "/"), urldict)
      | some key =>
          match concurrentDictionaryFind ck none urldict key with
          | some p => (some p, urldict)
          | none =>
              let p := (gctx.externalCacheGet key).or (perl (joinArguments pctx args))
              (p, (concurrentDictionaryAdd ck urldict key p).2)

end Tables

/-! ## Keys that are the same -/

/-- Two calls have the same key for the table only where their prefixes and
their joined arguments are the same. -/
def Isolated (first second : UrlContext) (args args' : List (Option CString)) : Prop :=
  ∀ key key', cacheKey first args = some key → cacheKey second args' = some key' →
    dictionaryKey key = dictionaryKey key' →
    first.cacheKeyPrefix.map CString.bytes = second.cacheKeyPrefix.map CString.bytes ∧
      joinArguments first args = joinArguments second args'

/-- One of two different prefixes goes on where the other ends with what the
arguments of the other begin with, and with the same arguments behind it. -/
def Overlaps (first second : UrlContext) (args args' : List (Option CString)) : Prop :=
  first.cacheKeyPrefix.map CString.bytes ≠ second.cacheKeyPrefix.map CString.bytes ∧
    Exists fun more => second.front = first.front ++ more ∧
      joinArguments first args = more ++ joinArguments second args'

/-- Keys that differ, but not in what the table is shown of them. -/
def CutAlike (key key' : Bytes) : Prop := key ≠ key' ∧ dictionaryKey key = dictionaryKey key'

theorem cacheKey_eq_some_iff {pctx : UrlContext} {args : List (Option CString)} {key : Bytes} :
    cacheKey pctx args = some key ↔
      joinArguments pctx args ≠ [] ∧ pctx.front ++ joinArguments pctx args = key := by
  rw [cacheKey]
  split
  next empty => exact ⟨nofun, fun both => absurd empty both.1⟩
  next filled => exact ⟨fun same => ⟨filled, Option.some.inj same⟩, fun both => congrArg some both.2⟩

/-- Keys that are the same are those of the same prefix and arguments, or one
prefix goes on in the arguments behind the other. -/
theorem key_eq_iff (first second : UrlContext) (args args' : List (Option CString)) :
    first.front ++ joinArguments first args = second.front ++ joinArguments second args' ↔
      first.cacheKeyPrefix.map CString.bytes = second.cacheKeyPrefix.map CString.bytes ∧
          joinArguments first args = joinArguments second args' ∨
        Overlaps first second args args' ∨ Overlaps second first args' args := by
  constructor
  · intro same
    by_cases prefixes : first.cacheKeyPrefix.map CString.bytes =
        second.cacheKeyPrefix.map CString.bytes
    · refine .inl ⟨prefixes, ?_⟩
      rw [UrlContext.front, UrlContext.front, prefixes] at same
      exact List.append_cancel_left same
    · rcases List.append_eq_append_iff.mp same with ⟨more, longer, behind⟩ | ⟨more, longer, behind⟩
      · exact .inr (.inl ⟨prefixes, more, longer, behind⟩)
      · exact .inr (.inr ⟨Ne.symm prefixes, more, longer, behind⟩)
  · rintro (⟨prefixes, joined⟩ | ⟨-, more, longer, behind⟩ | ⟨-, more, longer, behind⟩)
    · rw [UrlContext.front, UrlContext.front, prefixes, joined]
    · rw [longer, behind, List.append_assoc]
    · rw [longer, behind, List.append_assoc]

/-- Two calls are kept apart iff neither prefix goes on in the arguments behind
the other, and their keys do not differ only in what the table is not shown. -/
theorem url_keys_isolated_iff (first second : UrlContext) (args args' : List (Option CString)) :
    Isolated first second args args' ↔
      (joinArguments first args ≠ [] → joinArguments second args' ≠ [] →
        ¬ Overlaps first second args args' ∧ ¬ Overlaps second first args' args ∧
          ¬ CutAlike (first.front ++ joinArguments first args)
            (second.front ++ joinArguments second args')) := by
  simp only [Isolated, cacheKey_eq_some_iff]
  constructor
  · intro isolated filled filled'
    have apart := isolated _ _ ⟨filled, rfl⟩ ⟨filled', rfl⟩
    refine ⟨fun overlaps => ?_, fun overlaps => ?_, fun alike => ?_⟩
    · have same := (key_eq_iff first second args args').mpr (.inr (.inl overlaps))
      exact overlaps.1 (apart (congrArg dictionaryKey same)).1
    · have same := (key_eq_iff first second args args').mpr (.inr (.inr overlaps))
      exact overlaps.1 (apart (congrArg dictionaryKey same)).1.symm
    · exact alike.1 ((key_eq_iff first second args args').mpr (.inl (apart alike.2)))
  · rintro apart key key' ⟨filled, rfl⟩ ⟨filled', rfl⟩ shown
    rcases apart filled filled' with ⟨left, right, uncut⟩
    have same := not_not.mp fun differ => uncut ⟨differ, shown⟩
    exact (((key_eq_iff first second args args').mp same).resolve_right
      fun overlaps => overlaps.elim left right)

/-- Keys of fewer than 65536 bytes are shown as a whole. -/
theorem not_cutAlike {key key' : Bytes} (short : key.length < 2 ^ 16) (short' : key'.length < 2 ^ 16) :
    ¬ CutAlike key key' := by
  rintro ⟨differ, shown⟩
  rw [dictionaryKey, dictionaryKey, Nat.mod_eq_of_lt short, Nat.mod_eq_of_lt short', List.take_length,
    List.take_length] at shown
  exact differ shown

/-- Contexts whose prefixes do not begin with each other are kept apart by them. -/
theorem not_overlaps {first second : UrlContext} (apart : ¬ first.front <+: second.front)
    (args args' : List (Option CString)) : ¬ Overlaps first second args args' := by
  rintro ⟨-, more, longer, -⟩
  exact apart ⟨more, longer.symm⟩

/-- The prefix `a` in front of `b`, and no prefix in front of `ab`. -/
theorem prefix_is_taken_for_an_argument :
    ¬ ∀ (first second : UrlContext) (args args' : List (Option CString)),
      Isolated first second args args' := by
  intro isolated
  have same := isolated ⟨some ⟨lit "a", by decide⟩, fun _ => none⟩ ⟨none, fun _ => none⟩
    [some ⟨lit "b", by decide⟩] [some ⟨lit "ab", by decide⟩] (lit "ab") (lit "ab") (by decide)
    (by decide) rfl
  exact absurd same.1 nofun

/-! ## Runs -/

section Runs

variable (ck : InsertOnce Bytes (Option Bytes)) (gctx : UrlServices)

/-- A call of `ltr:url_code` in a context. -/
structure UrlCall where
  pctx : UrlContext
  args : List (Option CString)

/-- The address without the table. -/
def UrlCall.fresh (call : UrlCall) : Option Bytes := (xfUrlcode ck gctx ck.empty call.pctx call.args).1

/-- The table after calls of any contexts. -/
def urldictAfter (calls : List UrlCall) : ck.Table :=
  calls.foldl (fun urldict call => (xfUrlcode ck gctx urldict call.pctx call.args).2) ck.empty

variable {ck} {gctx}

/-- A call does not look at the table, or it has a key and finds the address,
or adds the one it computes. -/
theorem xfUrlcode_cases (call : UrlCall) :
    (∀ urldict, xfUrlcode ck gctx urldict call.pctx call.args = (call.fresh ck gctx, urldict)) ∨
      Exists fun key => cacheKey call.pctx call.args = some key ∧
        (Exists fun perl => gctx.perlUrlcode = some perl ∧ call.fresh ck gctx =
          (gctx.externalCacheGet key).or (perl (joinArguments call.pctx call.args))) ∧
        ∀ urldict, xfUrlcode ck gctx urldict call.pctx call.args =
          match concurrentDictionaryFind ck none urldict key with
          | some p => (some p, urldict)
          | none => (call.fresh ck gctx, (concurrentDictionaryAdd ck urldict key (call.fresh ck gctx)).2) := by
  have empty : ∀ key, concurrentDictionaryFind ck none ck.empty key = none := by
    intro key
    rw [concurrentDictionaryFind, ck.get_empty]
    rfl
  rw [UrlCall.fresh]
  cases args : call.args with
  | nil => exact .inl fun _ => rfl
  | cons str more =>
      cases perl : gctx.perlUrlcode with
      | none =>
          refine .inl fun _ => ?_
          simp only [xfUrlcode, perl]
      | some perl_ =>
          cases key : cacheKey call.pctx (str :: more) with
          | none =>
              refine .inl fun _ => ?_
              simp only [xfUrlcode, perl, key]
          | some key_ =>
              refine .inr ⟨key_, rfl, ⟨perl_, rfl, ?_⟩, fun urldict => ?_⟩
              · simp only [xfUrlcode, perl, key, empty]
              · simp only [xfUrlcode, perl, key, empty]

variable (gctx) in
/-- What the table has was computed for a call with a key that it takes for this one. -/
def Computed (calls : List UrlCall) (urldict : ck.Table) : Prop :=
  ∀ shown p, ck.get urldict shown = some p → Exists fun call => call ∈ calls ∧
    Exists fun key => cacheKey call.pctx call.args = some key ∧ dictionaryKey key = shown ∧
      Exists fun perl => gctx.perlUrlcode = some perl ∧
        p = (gctx.externalCacheGet key).or (perl (joinArguments call.pctx call.args))

/-- A call adds its own address alone. -/
theorem Computed.step {calls : List UrlCall} {urldict : ck.Table}
    (computed : Computed gctx calls urldict) (call : UrlCall) :
    Computed gctx (calls ++ [call]) (xfUrlcode ck gctx urldict call.pctx call.args).2 := by
  have older : Computed gctx (calls ++ [call]) urldict := by
    intro shown p found
    rcases computed shown p found with ⟨earlier, member, known⟩
    exact ⟨earlier, List.mem_append_left [call] member, known⟩
  rcases @xfUrlcode_cases ck gctx call with
    plain | ⟨key, keyed, ⟨perl, known, fresh⟩, run⟩
  · rw [plain]
    exact older
  · rw [run]
    cases concurrentDictionaryFind ck none urldict key with
    | some p => exact older
    | none =>
        intro shown p found
        change ck.get (ck.put urldict (dictionaryKey key) (call.fresh ck gctx)).2 shown = some p at found
        rw [ck.get_put] at found
        cases old : ck.get urldict shown with
        | some q =>
            rw [old, Option.some_or] at found
            exact older shown p (old.trans found)
        | none =>
            rw [old, Option.none_or] at found
            split at found
            next same =>
              exact ⟨call, List.mem_append_right calls List.mem_cons_self, key, keyed, same,
                perl, known, (Option.some.inj found).symm.trans fresh⟩
            next other => cases found

theorem urldictAfter_computed (calls : List UrlCall) :
    Computed gctx calls (urldictAfter ck gctx calls) := by
  induction calls using List.reverseRecOn with
  | nil =>
      intro shown p found
      rw [urldictAfter, List.foldl_nil, ck.get_empty] at found
      cases found
  | append_singleton calls call inductionHypothesis =>
      rw [urldictAfter, List.foldl_append]
      exact inductionHypothesis.step call

/-- In a run of calls that are kept apart, every context gets the address that
it would get without the table. -/
theorem urls_as_without_table (before : List UrlCall) (call : UrlCall)
    (apart : ∀ earlier ∈ before, Isolated earlier.pctx call.pctx earlier.args call.args) :
    (xfUrlcode ck gctx (urldictAfter ck gctx before) call.pctx call.args).1 = call.fresh ck gctx := by
  rcases @xfUrlcode_cases ck gctx call with plain | ⟨key, keyed, ⟨perl, known, fresh⟩, run⟩
  · rw [plain]
  · rw [run]
    cases found : concurrentDictionaryFind ck none (urldictAfter ck gctx before) key with
    | none => rfl
    | some p =>
        have held : ck.get (urldictAfter ck gctx before) (dictionaryKey key) = some (some p) := by
          rw [concurrentDictionaryFind] at found
          cases got : ck.get (urldictAfter ck gctx before) (dictionaryKey key) with
          | none =>
              rw [got] at found
              cases found
          | some q =>
              rw [got] at found
              exact congrArg some found
        rcases urldictAfter_computed before _ _ held with
          ⟨earlier, member, key', keyed', shown, perl', known', value⟩
        rcases apart earlier member key' key keyed' keyed shown with ⟨prefixes, joined⟩
        have same : key' = key := by
          rw [← (cacheKey_eq_some_iff.mp keyed').2, ← (cacheKey_eq_some_iff.mp keyed).2, joined,
            UrlContext.front, UrlContext.front, prefixes]
        rw [known] at known'
        obtain rfl := Option.some.inj known'
        rw [fresh, ← joined, ← same]
        exact value

end Runs

end UrlCache
end TurboXSL
