import Mathlib.Data.List.Induction
import TurboXSL.Dictionary

namespace TurboXSL

open Library Output

/-!
# Access rights

`group_rights.c` and `chk:check_rights`: libraries of groups of actions, and
the set of the actions that the groups of a user grant.  All three levels are
dictionaries, and `dict_add` keeps what is there: a group that is defined again
keeps its first definition.
-/

/-- `group_rights` with the library entries it points to, and `user_rights`,
which is NULL at first. -/
structure Rights where
  groupRights : XMLDict Nat
  libraries : Arena (XMLDict (List Bytes))
  userRights : Option (XMLDict Bytes)

/-- Behind `XSLTInit` and `XSLTNewProcessor`. -/
def Rights.initial : Rights where
  groupRights := dictNew 300
  libraries := ⟨0, fun _ => dictNew 50⟩
  userRights := none

/-- `XSLTDefineGroupRights` -/
def xsltDefineGroupRights (library group : Bytes) (actions : List Bytes) (data : Rights) :
    Option Rights := do
  let libraryString := untilNul library
  let (data, rights) ←
    match ← dictFind data.groupRights libraryString with
    | some rights => some (data, rights)
    | none => do
        let rights := data.libraries.size
        let (groupRights, _) ← dictAdd data.groupRights libraryString rights
        some ({ data with groupRights := groupRights,
                          libraries := data.libraries.alloc (dictNew 50) }, rights)
  let entry := actions.map untilNul
  let (groups, _) ← dictAdd (data.libraries.get rights) (untilNul group) entry
  some { data with libraries := data.libraries.write rights groups }

/-- The inner loop of `XSLTSetUserContext`. -/
def addActions : List Bytes → XMLDict Bytes → Option (XMLDict Bytes)
  | [], userRights => some userRights
  | action :: rest, userRights => do
      let (userRights, _) ← dictAdd userRights action action
      addActions rest userRights

/-- The outer loop of `XSLTSetUserContext`. -/
def addGroups (rights : XMLDict (List Bytes)) : List Bytes → XMLDict Bytes → Option (XMLDict Bytes)
  | [], userRights => some userRights
  | group :: rest, userRights => do
      match ← dictFind rights (untilNul group) with
      | none => addGroups rights rest userRights
      | some entry => addGroups rights rest (← addActions entry userRights)

/-- `XSLTSetUserContext` -/
def xsltSetUserContext (library : Bytes) (groups : List Bytes) (data : Rights) : Option Rights := do
  match ← dictFind data.groupRights (untilNul library) with
  | none => some { data with userRights := some (dictNew 50) }
  | some rights => do
      let userRights ← addGroups (data.libraries.get rights) groups (dictNew 50)
      some { data with userRights := some userRights }

/-- `xf_check` behind the evaluation of its argument. -/
def xfCheck (str : Bytes) (data : Rights) : Option Bool :=
  match data.userRights with
  | none => some false
  | some userRights => (dictFind userRights (untilNul str)).map Option.isSome

/-! ## Histories -/

/-- A call of the interface. -/
inductive RightsCall where
  | defineGroupRights (library group : Bytes) (actions : List Bytes)
  | setUserContext (library : Bytes) (groups : List Bytes)

def RightsCall.apply : RightsCall → Rights → Option Rights
  | .defineGroupRights library group actions => xsltDefineGroupRights library group actions
  | .setUserContext library groups => xsltSetUserContext library groups

/-- The state behind the calls, the first of them first. -/
def rightsAfter : List RightsCall → Rights → Option Rights
  | [], data => some data
  | call :: rest, data => do rightsAfter rest (← call.apply data)

/-- `chk:check_rights` is true for the string behind the calls. -/
def Checks (calls : List RightsCall) (str : Bytes) : Prop :=
  Exists fun data => rightsAfter calls .initial = some data ∧ xfCheck str data = some true

/-- The actions that the call defines for the group. -/
def RightsCall.definition (library group : Bytes) : RightsCall → Option (List Bytes)
  | .defineGroupRights library' group' actions =>
      if untilNul library' = library ∧ untilNul group' = group then some (actions.map untilNul)
      else none
  | .setUserContext _ _ => none

/-- All definitions of the group, in order. -/
def definitions (calls : List RightsCall) (library group : Bytes) : List (List Bytes) :=
  calls.filterMap (RightsCall.definition library group)

def RightsCall.isDefinition : RightsCall → Bool
  | .defineGroupRights _ _ _ => true
  | .setUserContext _ _ => false

/-- The action is in the definition that `pick` takes of a group of the latest
context, out of those before it. -/
def GrantedBy (pick : List (List Bytes) → Option (List Bytes)) (calls : List RightsCall)
    (action : Bytes) : Prop :=
  Exists fun before => Exists fun library => Exists fun groups => Exists fun later =>
    calls = before ++ .setUserContext library groups :: later ∧
    (∀ call ∈ later, call.isDefinition = true) ∧
    Exists fun group => group ∈ groups ∧ Exists fun actions =>
      pick (definitions before (untilNul library) (untilNul group)) = some actions ∧
      untilNul action ∈ actions

/-- What was granted: the most recent definitions count. -/
def Granted : List RightsCall → Bytes → Prop := GrantedBy List.getLast?

/-! ## What the calls do -/

theorem addActions_spec (actions : List Bytes) {userRights : XMLDict Bytes}
    (lawful : userRights.Lawful) :
    Exists fun after => addActions actions userRights = some after ∧ after.Lawful ∧
      ∀ action, (after.lookup action).isSome ↔
        (userRights.lookup action).isSome ∨ action ∈ actions := by
  induction actions generalizing userRights with
  | nil => exact ⟨userRights, rfl, lawful, fun action => by simp only [List.not_mem_nil, or_false]⟩
  | cons first rest inductionHypothesis =>
      rcases dictAdd_spec lawful first first with ⟨middle, added, kept, lookups⟩
      rcases inductionHypothesis kept with ⟨after, done, last, members⟩
      refine ⟨after, ?_, last, fun action => ?_⟩
      · unfold addActions
        rw [added]
        exact done
      · have here : (middle.lookup action).isSome ↔
            (userRights.lookup action).isSome ∨ action = first := by
          rw [lookups action]
          by_cases same : first = action
          · subst same
            cases present : userRights.lookup first <;> simp
          · rw [if_neg (fun both => same both.1)]
            exact ⟨.inl, fun either => either.resolve_right fun equal => same equal.symm⟩
        rw [members, here, List.mem_cons, or_assoc]

theorem addGroups_spec {rights : XMLDict (List Bytes)} (known : rights.Lawful)
    (groups : List Bytes) {userRights : XMLDict Bytes} (lawful : userRights.Lawful) :
    Exists fun after => addGroups rights groups userRights = some after ∧ after.Lawful ∧
      ∀ action, (after.lookup action).isSome ↔ (userRights.lookup action).isSome ∨
        Exists fun group => group ∈ groups ∧ Exists fun actions =>
          rights.lookup (untilNul group) = some actions ∧ action ∈ actions := by
  induction groups generalizing userRights with
  | nil => exact ⟨userRights, rfl, lawful, fun action => by simp⟩
  | cons first rest inductionHypothesis =>
      have found := dictFind_eq known (untilNul first)
      cases entry : rights.lookup (untilNul first) with
      | none =>
          rw [entry] at found
          rcases inductionHypothesis lawful with ⟨after, done, last, members⟩
          refine ⟨after, ?_, last, fun action => ?_⟩
          · unfold addGroups
            rw [found]
            exact done
          · rw [members]
            simp [entry]
      | some actions =>
          rw [entry] at found
          rcases addActions_spec actions lawful with ⟨middle, added, kept, here⟩
          rcases inductionHypothesis kept with ⟨after, done, last, members⟩
          refine ⟨after, ?_, last, fun action => ?_⟩
          · unfold addGroups
            rw [found]
            change (addActions actions userRights).bind _ = _
            rw [added]
            exact done
          · rw [members, here, or_assoc]
            simp [entry]

/-! ## Histories and states -/

section Histories

variable {calls : List RightsCall} {call : RightsCall} {library group : Bytes}

theorem definitions_append :
    definitions (calls ++ [call]) library group =
      definitions calls library group ++ (call.definition library group).toList := by
  unfold definitions
  rw [List.filterMap_append, List.filterMap_cons]
  cases call.definition library group <;> rfl

/-- A definition comes behind the others of its group. -/
theorem definitions_define {library' group' : Bytes} {actions : List Bytes} :
    definitions (calls ++ [.defineGroupRights library' group' actions]) library group =
      definitions calls library group ++
        if untilNul library' = library ∧ untilNul group' = group then [actions.map untilNul]
        else [] := by
  rw [definitions_append, RightsCall.definition]
  split <;> rfl

theorem rightsAfter_append {data : Rights} :
    rightsAfter (calls ++ [call]) data = (rightsAfter calls data).bind call.apply := by
  induction calls generalizing data with
  | nil =>
      change (call.apply data).bind some = _
      exact Option.bind_fun_some _
  | cons first rest inductionHypothesis =>
      change (first.apply data).bind (rightsAfter (rest ++ [call])) =
        ((first.apply data).bind (rightsAfter rest)).bind call.apply
      rw [Option.bind_assoc]
      exact congrArg _ (funext fun _ => inductionHypothesis)

variable {pick : List (List Bytes) → Option (List Bytes)} {action : Bytes}

/-- A definition does not change what the latest context grants. -/
theorem grantedBy_define (definition : call.isDefinition = true) :
    GrantedBy pick (calls ++ [call]) action ↔ GrantedBy pick calls action := by
  constructor
  · rintro ⟨before, library, groups, later, same, definitions, granted⟩
    rcases List.eq_nil_or_concat later with rfl | ⟨rest, last, rfl⟩
    · have end_ := (List.append_inj' same rfl).2
      cases List.singleton_inj.mp end_
      cases definition
    · rw [List.concat_eq_append, ← List.cons_append, ← List.append_assoc] at same
      have front := (List.append_inj' same rfl).1
      refine ⟨before, library, groups, rest, front, fun other member => ?_, granted⟩
      exact definitions other (List.concat_eq_append ▸ List.mem_append_left _ member)
  · rintro ⟨before, library, groups, later, same, definitions, granted⟩
    refine ⟨before, library, groups, later ++ [call], ?_, fun other member => ?_, granted⟩
    · rw [same, List.append_assoc, List.cons_append]
    · rcases List.mem_append.mp member with old | new
      · exact definitions other old
      · cases List.mem_singleton.mp new
        exact definition

/-- A new context grants what its groups are defined to grant by then. -/
theorem grantedBy_context {groups : List Bytes} :
    GrantedBy pick (calls ++ [.setUserContext library groups]) action ↔
      Exists fun group => group ∈ groups ∧ Exists fun actions =>
        pick (definitions calls (untilNul library) (untilNul group)) = some actions ∧
        untilNul action ∈ actions := by
  constructor
  · rintro ⟨before, library', groups', later, same, definitions, granted⟩
    rcases List.eq_nil_or_concat later with rfl | ⟨rest, last, rfl⟩
    · have parts := List.append_inj' same rfl
      cases List.singleton_inj.mp parts.2
      cases parts.1
      exact granted
    · rw [List.concat_eq_append] at same definitions
      rw [← List.cons_append, ← List.append_assoc] at same
      have end_ := List.singleton_inj.mp (List.append_inj' same rfl).2
      have definition := definitions last (List.mem_append_right _ List.mem_cons_self)
      rw [← end_] at definition
      cases definition
  · intro granted
    exact ⟨calls, library, groups, [], rfl, List.forall_mem_nil _, granted⟩

end Histories

/-- The state holds the first definition of every group, and what the latest
context grants by first definitions. -/
structure Rights.Represents (data : Rights) (calls : List RightsCall) : Prop where
  lawful : data.groupRights.Lawful
  unknown : ∀ library, data.groupRights.lookup library = none →
    ∀ group, definitions calls library group = []
  known : ∀ library rights, data.groupRights.lookup library = some rights →
    rights < data.libraries.size ∧ (data.libraries.get rights).Lawful ∧
      ∀ group, (data.libraries.get rights).lookup group = (definitions calls library group).head?
  apart : ∀ library other rights, data.groupRights.lookup library = some rights →
    data.groupRights.lookup other = some rights → library = other
  user : ∀ action, xfCheck action data = some true ↔ GrantedBy List.head? calls action

theorem represents_initial : Rights.initial.Represents [] where
  lawful := lawful_new 300
  unknown := fun _ _ _ => rfl
  known := fun _ _ there => nomatch there
  apart := fun _ _ _ there => nomatch there
  user := by
    intro action
    constructor
    · intro checked
      cases checked
    · rintro ⟨before, library, groups, later, same, _⟩
      cases before <;> cases same

section Calls

variable {data : Rights} {calls : List RightsCall}

/-- A library that is not known gets an entry without groups. -/
theorem Rights.Represents.newLibrary (represents : data.Represents calls) {library : Bytes}
    (new : data.groupRights.lookup library = none) :
    Exists fun groupRights => Exists fun fresh =>
      dictAdd data.groupRights library data.libraries.size = some (groupRights, fresh) ∧
      groupRights.lookup library = some data.libraries.size ∧
      Rights.Represents { data with groupRights := groupRights,
                                    libraries := data.libraries.alloc (dictNew 50) } calls := by
  rcases dictAdd_spec represents.lawful library data.libraries.size with
    ⟨groupRights, added, lawful, lookups⟩
  have here : groupRights.lookup library = some data.libraries.size := by
    rw [lookups, if_pos ⟨rfl, new⟩]
  have elsewhere : ∀ other, library ≠ other →
      groupRights.lookup other = data.groupRights.lookup other := by
    intro other different
    rw [lookups, if_neg fun both => different both.1]
  refine ⟨groupRights, _, added, here, ?_⟩
  constructor
  · exact lawful
  · intro other missing group
    by_cases same : library = other
    · rw [← same, here] at missing
      cases missing
    · exact represents.unknown other ((elsewhere other same).symm.trans missing) group
  · intro other rights there
    by_cases same : library = other
    · subst same
      cases here.symm.trans there
      refine ⟨Nat.lt_succ_self _, ?_, fun group => ?_⟩
      · rw [Arena.alloc_get_same]
        exact lawful_new 50
      · rw [Arena.alloc_get_same, represents.unknown library new group]
        rfl
    · have old := represents.known other rights ((elsewhere other same).symm.trans there)
      rw [Arena.alloc_get_of_lt _ _ old.1]
      exact ⟨Nat.lt_succ_of_lt old.1, old.2⟩
  · intro other another rights there too
    have fresh : ∀ name, library ≠ name → groupRights.lookup name = some rights →
        rights < data.libraries.size := fun name different found =>
      (represents.known name rights ((elsewhere name different).symm.trans found)).1
    by_cases first : library = other
    · by_cases second : library = another
      · exact first.symm.trans second
      · cases here.symm.trans (first ▸ there)
        exact absurd (fresh another second too) (Nat.lt_irrefl _)
    · by_cases second : library = another
      · cases here.symm.trans (second ▸ too)
        exact absurd (fresh other first there) (Nat.lt_irrefl _)
      · exact represents.apart other another rights ((elsewhere other first).symm.trans there)
          ((elsewhere another second).symm.trans too)
  · exact represents.user

/-- The group gets its definition unless it has one. -/
theorem Rights.Represents.newGroup (represents : data.Represents calls) {library : Bytes}
    {rights : Nat} (there : data.groupRights.lookup (untilNul library) = some rights)
    (group : Bytes) (actions : List Bytes) :
    Exists fun groups => Exists fun fresh =>
      dictAdd (data.libraries.get rights) (untilNul group) (actions.map untilNul) =
        some (groups, fresh) ∧
      Rights.Represents { data with libraries := data.libraries.write rights groups }
        (calls ++ [.defineGroupRights library group actions]) := by
  have known := represents.known _ rights there
  rcases dictAdd_spec known.2.1 (untilNul group) (actions.map untilNul) with
    ⟨groups, added, lawful, lookups⟩
  refine ⟨groups, _, added, ?_⟩
  constructor
  · exact represents.lawful
  · intro other missing group'
    have different : ¬ (untilNul library = other ∧ untilNul group = group') := by
      rintro ⟨rfl, _⟩
      cases there.symm.trans missing
    rw [definitions_define, represents.unknown other missing group', if_neg different]
    rfl
  · intro other rights' found
    by_cases same : untilNul library = other
    · subst same
      cases there.symm.trans found
      rw [Arena.write_get, if_pos rfl]
      refine ⟨known.1, lawful, fun group' => ?_⟩
      rw [lookups, definitions_define, List.head?_append, known.2.2, known.2.2]
      by_cases here : untilNul group = group'
      · subst here
        rw [if_pos (And.intro rfl rfl)]
        cases (definitions calls (untilNul library) (untilNul group)).head? with
        | none => exact if_pos ⟨rfl, rfl⟩
        | some first => exact if_neg fun both => nomatch both.2
      · rw [if_neg (fun both => here both.1), if_neg (fun both => here both.2)]
        exact (Option.or_none).symm
    · have old := represents.known other rights' found
      have different : rights' ≠ rights := by
        rintro rfl
        exact same (represents.apart _ _ _ there found)
      rw [Arena.write_get, if_neg different]
      refine ⟨old.1, old.2.1, fun group' => ?_⟩
      rw [definitions_define, old.2.2, if_neg (fun both => same both.1), List.append_nil]
  · exact represents.apart
  · intro action
    rw [grantedBy_define rfl]
    exact represents.user action

/-- `XSLTDefineGroupRights` keeps first definitions. -/
theorem Rights.Represents.define (represents : data.Represents calls) (library group : Bytes)
    (actions : List Bytes) :
    Exists fun after => xsltDefineGroupRights library group actions data = some after ∧
      after.Represents (calls ++ [.defineGroupRights library group actions]) := by
  have found := dictFind_eq represents.lawful (untilNul library)
  unfold xsltDefineGroupRights
  dsimp only
  rw [found]
  cases there : data.groupRights.lookup (untilNul library) with
  | some rights =>
      rcases represents.newGroup there group actions with ⟨groups, fresh, added, next⟩
      refine ⟨_, ?_, next⟩
      simp only [Option.bind_eq_bind, Option.bind_some, added]
  | none =>
      rcases represents.newLibrary there with ⟨groupRights, _, first, here, middle⟩
      rcases middle.newGroup here group actions with ⟨groups, fresh, added, next⟩
      refine ⟨_, ?_, next⟩
      simp only [Option.bind_eq_bind, Option.bind_some, first, added]

/-- `XSLTSetUserContext` grants by the definitions kept. -/
theorem Rights.Represents.context (represents : data.Represents calls) (library : Bytes)
    (groups : List Bytes) :
    Exists fun after => xsltSetUserContext library groups data = some after ∧
      after.Represents (calls ++ [.setUserContext library groups]) := by
  have same : ∀ name group, definitions (calls ++ [.setUserContext library groups]) name group =
      definitions calls name group := by
    intro name group
    rw [definitions_append]
    exact List.append_nil _
  have kept : ∀ userRights : XMLDict Bytes, userRights.Lawful →
      (∀ action, (userRights.lookup (untilNul action)).isSome ↔
        GrantedBy List.head? (calls ++ [.setUserContext library groups]) action) →
      Rights.Represents { data with userRights := some userRights }
        (calls ++ [.setUserContext library groups]) := by
    intro userRights lawful grants
    constructor
    · exact represents.lawful
    · intro name missing group
      rw [same]
      exact represents.unknown name missing group
    · intro name rights there
      have known := represents.known name rights there
      refine ⟨known.1, known.2.1, fun group => ?_⟩
      rw [same]
      exact known.2.2 group
    · exact represents.apart
    · intro action
      rw [← grants action]
      unfold xfCheck
      dsimp only
      rw [dictFind_eq lawful]
      exact Option.some_inj
  have found := dictFind_eq represents.lawful (untilNul library)
  unfold xsltSetUserContext
  rw [found]
  cases there : data.groupRights.lookup (untilNul library) with
  | none =>
      refine ⟨_, rfl, kept _ (lawful_new 50) fun action => ?_⟩
      rw [grantedBy_context]
      constructor
      · intro found
        cases found
      · rintro ⟨group, _, actions, picked, _⟩
        rw [represents.unknown _ there] at picked
        cases picked
  | some rights =>
      have known := represents.known _ rights there
      rcases addGroups_spec known.2.1 groups (lawful_new 50) with
        ⟨userRights, done, lawful, members⟩
      refine ⟨_, ?_, kept userRights lawful fun action => ?_⟩
      · simp only [Option.bind_eq_bind, Option.bind_some, done]
      · rw [grantedBy_context, members]
        simp only [known.2.2, lookup_new, Option.isSome_none, Bool.false_eq_true, false_or]

/-- No history leads to a fault, and its first definitions are kept. -/
theorem rightsAfter_spec (calls : List RightsCall) :
    Exists fun data => rightsAfter calls .initial = some data ∧ data.Represents calls := by
  induction calls using List.reverseRecOn with
  | nil => exact ⟨_, rfl, represents_initial⟩
  | append_singleton calls call inductionHypothesis =>
      rcases inductionHypothesis with ⟨data, reached, represents⟩
      rw [rightsAfter_append, reached]
      cases call with
      | defineGroupRights library group actions => exact represents.define library group actions
      | setUserContext library groups => exact represents.context library groups

end Calls

theorem checks_iff (calls : List RightsCall) (action : Bytes) :
    Checks calls action ↔ GrantedBy List.head? calls action := by
  rcases rightsAfter_spec calls with ⟨data, reached, represents⟩
  rw [← represents.user action]
  constructor
  · rintro ⟨data', reached', checked⟩
    cases reached.symm.trans reached'
    exact checked
  · exact fun checked => ⟨data, reached, checked⟩

/-! ## First and most recent definitions -/

theorem untilNul_untilNul (s : Bytes) : untilNul (untilNul s) = untilNul s := by
  unfold untilNul
  rw [List.takeWhile_takeWhile]
  simp only [and_self, decide_eq_true_eq]

/-- What is defined is made of C strings. -/
theorem definitions_untilNul {calls : List RightsCall} {library group : Bytes}
    {actions : List Bytes} (defined : actions ∈ definitions calls library group) :
    untilNul library = library ∧ untilNul group = group ∧
      ∀ action ∈ actions, untilNul action = action := by
  rcases List.mem_filterMap.mp defined with ⟨call, _, made⟩
  cases call with
  | setUserContext _ _ => cases made
  | defineGroupRights library' group' actions' =>
      rw [RightsCall.definition] at made
      split at made
      next names =>
        cases made
        rw [← names.1, ← names.2]
        refine ⟨untilNul_untilNul _, untilNul_untilNul _, fun action member => ?_⟩
        rcases List.mem_map.mp member with ⟨action', _, rfl⟩
        exact untilNul_untilNul _
      · cases made

/-- The latest context counts, whatever is defined behind it. -/
theorem grantedBy_later {pick : List (List Bytes) → Option (List Bytes)}
    {calls later : List RightsCall} {library : Bytes} {groups : List Bytes} {action : Bytes}
    (definitions_ : ∀ call ∈ later, call.isDefinition = true) :
    GrantedBy pick (calls ++ .setUserContext library groups :: later) action ↔
      Exists fun group => group ∈ groups ∧ Exists fun actions =>
        pick (definitions calls (untilNul library) (untilNul group)) = some actions ∧
        untilNul action ∈ actions := by
  induction later using List.reverseRecOn with
  | nil => exact grantedBy_context
  | append_singleton later call inductionHypothesis =>
      rw [← List.cons_append, ← List.append_assoc,
        grantedBy_define (definitions_ call (List.mem_append_right _ List.mem_cons_self))]
      exact inductionHypothesis fun other member =>
        definitions_ other (List.mem_append_left _ member)

/-- The first and the most recent definition have the same actions. -/
def SameActions (definitions : List (List Bytes)) : Prop :=
  ∀ action, (Exists fun first => definitions.head? = some first ∧ action ∈ first) ↔
    Exists fun last => definitions.getLast? = some last ∧ action ∈ last

/-- Behind these calls the rights of every user context are exactly those
granted just if no group has been defined again with other actions. -/
theorem rights_exact_iff (calls : List RightsCall) :
    (∀ library groups later, (∀ call ∈ later, call.isDefinition = true) → ∀ action,
      Checks (calls ++ .setUserContext library groups :: later) action ↔
        Granted (calls ++ .setUserContext library groups :: later) action) ↔
      ∀ library group, SameActions (definitions calls library group) := by
  constructor
  · intro exact_ library group action
    have single : ∀ {actions}, actions ∈ definitions calls library group → action ∈ actions →
        ((Exists fun first => (definitions calls library group).head? = some first ∧
            action ∈ first) ↔
          Exists fun last => (definitions calls library group).getLast? = some last ∧
            action ∈ last) := by
      intro actions defined member
      rcases definitions_untilNul defined with ⟨libraryString, groupString, actionStrings⟩
      have here := exact_ library [group] [] (List.forall_mem_nil _) action
      rw [checks_iff, Granted, grantedBy_context, grantedBy_context, libraryString] at here
      simp only [List.mem_singleton, exists_eq_left, groupString,
        actionStrings action member] at here
      exact here
    constructor
    · rintro ⟨first, picked, member⟩
      exact (single (List.mem_of_head? picked) member).mp ⟨first, picked, member⟩
    · rintro ⟨last, picked, member⟩
      exact (single (List.mem_of_getLast? picked) member).mpr ⟨last, picked, member⟩
  · intro same library groups later definitions_ action
    rw [checks_iff, Granted, grantedBy_later definitions_, grantedBy_later definitions_]
    apply exists_congr
    intro group
    exact and_congr_right fun _ => same _ _ _

/-- A group that may read is defined again, and may write. -/
def redefined : List RightsCall :=
  [.defineGroupRights (lit "library") (lit "group") [lit "read"],
    .defineGroupRights (lit "library") (lit "group") [lit "write"],
    .setUserContext (lit "library") [lit "group"]]

theorem rights_of_redefined_group :
    ¬ ∀ calls action, Checks calls action ↔ Granted calls action := by
  intro exact_
  have grants : ∀ pick, GrantedBy pick redefined (lit "write") ↔
      Exists fun group => group ∈ [lit "group"] ∧ Exists fun actions =>
        pick (definitions (redefined.take 2) (untilNul (lit "library")) (untilNul group)) =
          some actions ∧ untilNul (lit "write") ∈ actions :=
    fun pick => (grantedBy_context :
      GrantedBy pick (redefined.take 2 ++ [.setUserContext (lit "library") [lit "group"]]) _ ↔ _)
  have granted : Granted redefined (lit "write") :=
    (grants _).mpr ⟨lit "group", List.mem_cons_self, [lit "write"], by decide, List.mem_cons_self⟩
  rcases (grants _).mp ((checks_iff _ _).mp ((exact_ redefined (lit "write")).mpr granted)) with
    ⟨group, named, actions, picked, member⟩
  cases List.mem_singleton.mp named
  have first : (definitions (redefined.take 2) (untilNul (lit "library"))
      (untilNul (lit "group"))).head? = some [lit "read"] := by decide
  cases first.symm.trans picked
  exact absurd member (by decide)

end TurboXSL
