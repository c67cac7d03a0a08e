import Mathlib.Order.WellFounded
import TurboXSL.Forest
import TurboXSL.Output

namespace TurboXSL

open Library Output

/-!
# Loading a stylesheet

`xsl_preprocess` puts the files that `xsl:include` names in the place of the
children of the element, and goes on into them; `process_imports` does the same
for `xsl:import`, and both together serve what is imported.  Neither looks at
which files are being expanded already.
-/

/-- Stylesheet nodes from a pointer on, with the file that they were read from. -/
inductive Sheet where
  | nil
  | text (content : Bytes) (next : Sheet)
  /-- An element, or an `EMPTY_NODE` that holds a whole file. -/
  | node (empty : Bool) (file name : Bytes) (attributes : List (Bytes × Bytes))
      (children next : Sheet)
deriving DecidableEq

def xslInclude : Bytes := lit "xsl:include"
def xslImport : Bytes := lit "xsl:import"
def xslText : Bytes := lit "xsl:text"
def xslAHref : Bytes := lit "href"

/-- The nodes that `do_parse` makes of a file. -/
def Sheet.ofForest (file : Bytes) : Forest → Sheet
  | .nil => .nil
  | .text content _ next => .text content (ofForest file next)
  | .element name attributes children next =>
      .node false file name attributes (ofForest file children) (ofForest file next)

/-- The root of a file. -/
def Sheet.root (file : Bytes) (forest : Forest) : Sheet :=
  .node true file xslSRoot [] (.ofForest file forest) .nil

/-- `get_absolute_path` for a node of this file. -/
def getAbsolutePath (file name : Bytes) : Bytes :=
  (file.reverse.dropWhile fun c => c ≠ '/'.toUInt8).reverse ++ untilNul name

/-- `xml_get_attr`, which looks at the first element where a node is empty;
`none` where there is none. -/
def Sheet.xmlGetAttr (name : Bytes) : Sheet → Option (Option Bytes)
  | .nil => none
  | .text _ _ => some none
  | .node true _ _ _ children _ => children.xmlGetAttr name
  | .node false _ _ attributes _ _ =>
      some ((attributes.find? fun attr => attr.1 = name).map Prod.snd)

/-- `get_reference_path` of a node of this file. -/
def getReferencePath (file : Bytes) (node : Sheet) : Option (Option Bytes) := do
  some ((← node.xmlGetAttr xslAHref).map (getAbsolutePath file))

/-! ## Expansion -/

/-- What is read for a node of this file and name, where the name is `tag`. -/
def readReference (tag : Bytes) (read : Bytes → Option (Option Sheet)) (file name : Bytes)
    (node : Sheet) : Option (Option Sheet) :=
  if name = tag then do
    match ← getReferencePath file node with
    | some path => read path
    | none => some none
  else some none

/-- `xsl_preprocess` for the nodes below one of this name.  `included` reads a
file and preprocesses it; its inner `none` says that the file is not read. -/
def xslPreprocess (included : Bytes → Option (Option Sheet)) : Bytes → Sheet → Option Sheet
  | _, .nil => some .nil
  | parent, .text content next => do
      let rest ← xslPreprocess included parent next
      if parent ≠ xslText ∧ (untilNul content).all xIsWs then some rest
      else some (.text content rest)
  | parent, .node empty file name attributes children next => do
      match ← readReference xslInclude included file name
          (.node empty file name attributes children next) with
      | some sheet => do
          some (.node true file name attributes sheet (← xslPreprocess included parent next))
      | none => do
          let children ← xslPreprocess included name children
          some (.node empty file name attributes children (← xslPreprocess included parent next))

/-- `process_imports`; `imported` reads a file, preprocesses it and processes
its imports. -/
def processImports (imported : Bytes → Option (Option Sheet)) : Sheet → Option Sheet
  | .nil => some .nil
  | .text content next => do some (.text content (← processImports imported next))
  | .node empty file name attributes children next => do
      if name = xslImport then
        match ← readReference xslImport imported file name
            (.node empty file name attributes children next) with
        | some sheet => do
            some (.node true file name attributes sheet (← processImports imported next))
        | none => do
            some (.node empty file name attributes children (← processImports imported next))
      else do
        let children ← processImports imported children
        some (.node empty file name attributes children (← processImports imported next))

section Loading

-- the files that `xml_parse_file` can read and parse
variable (files : Bytes → Option Forest)

/-- A file that is included, with files included in it to this depth. -/
def includedSheet : Nat → Bytes → Option (Option Sheet)
  | 0, path =>
      match files path with
      | none => some none
      | some _ => none
  | fuel + 1, path =>
      match files path with
      | none => some none
      | some forest => do some (some (← xslPreprocess (includedSheet fuel) [] (.root path forest)))

/-- A file that is imported, with files imported in it to this depth. -/
def importedSheet : Nat → Bytes → Option (Option Sheet)
  | 0, path =>
      match files path with
      | none => some none
      | some _ => none
  | fuel + 1, path =>
      match files path with
      | none => some none
      | some forest => do
          let included ← xslPreprocess (includedSheet files fuel) [] (.root path forest)
          some (some (← processImports (importedSheet fuel) included))

/-- The expansion in `XSLTNewProcessor`; the inner `none` where the stylesheet
itself is not read. -/
def xsltNewProcessor (fuel : Nat) (stylesheet : Bytes) : Option (Option Sheet) :=
  match files stylesheet with
  | none => some none
  | some forest => do
      match ← xslPreprocess (includedSheet files fuel) [] (.root stylesheet forest) with
      | .node empty file name attributes children next => do
          let children ← processImports (importedSheet files fuel) children
          some (some (.node empty file name attributes children next))
      | root => some (some root)

/-- The expansion comes to an end. -/
def Terminates (stylesheet : Bytes) : Prop :=
  Exists fun fuel => (xsltNewProcessor files fuel stylesheet).isSome

/-! ## References -/

/-- The file that an element refers to. -/
def reference (file : Bytes) (attributes : List (Bytes × Bytes)) : Option Bytes :=
  (attributes.find? fun attr => attr.1 = xslAHref).map fun attr => getAbsolutePath file attr.2

/-- The file that takes the place of what is below the element. -/
def replacement (file name : Bytes) (attributes : List (Bytes × Bytes)) : Option Bytes :=
  if name = xslInclude then (reference file attributes).filter fun path => (files path).isSome
  else none

/-- The files that a file includes, with whether that is below an element that
imports: what is there, is preprocessed, but its imports are not processed. -/
def includeReferences (file : Bytes) (hidden : Bool) : Forest → List (Bytes × Bool)
  | .nil => []
  | .text _ _ next => includeReferences file hidden next
  | .element name attributes children next =>
      match replacement files file name attributes with
      | some path => (path, hidden) :: includeReferences file hidden next
      | none =>
          includeReferences file (hidden || name = xslImport) children ++
            includeReferences file hidden next

/-- The files that a file imports. -/
def importReferences (file : Bytes) : Forest → List Bytes
  | .nil => []
  | .text _ _ next => importReferences file next
  | .element name attributes children next =>
      match replacement files file name attributes with
      | some _ => importReferences file next
      | none =>
          if name = xslImport then
            (reference file attributes).toList ++ importReferences file next
          else importReferences file children ++ importReferences file next

/-- A file that is to be loaded, with its imports or only preprocessed. -/
structure Loading where
  path : Bytes
  imports : Bool

/-- The first file is loaded on behalf of the second one. -/
inductive Refers : Loading → Loading → Prop where
  | include_ {path file : Bytes} {hidden : Bool} {forest : Forest} (imports : Bool)
      (there : files file = some forest)
      (named : (path, hidden) ∈ includeReferences files file false forest) :
      Refers ⟨path, imports && !hidden⟩ ⟨file, imports⟩
  | import_ {path file : Bytes} {forest : Forest} (there : files file = some forest)
      (named : path ∈ importReferences files file forest) : Refers ⟨path, true⟩ ⟨file, true⟩

end Loading

/-! ## What a preprocessed file imports -/

/-- The files that `process_imports` reads. -/
def Sheet.imports : Sheet → List Bytes
  | .nil => []
  | .text _ next => next.imports
  | .node _ file name attributes children next =>
      if name = xslImport then (reference file attributes).toList ++ next.imports
      else children.imports ++ next.imports

/-- The elements that import are still elements. -/
def Sheet.Importing : Sheet → Prop
  | .nil => True
  | .text _ next => next.Importing
  | .node empty _ name _ children next =>
      (name = xslImport → empty = false) ∧ children.Importing ∧ next.Importing

/-- A function that reads the files, and preprocesses them. -/
structure Serves (files : Bytes → Option Forest) (included : Bytes → Option (Option Sheet)) :
    Prop where
  missing : ∀ path, included path = some none ↔ files path = none
  importing : ∀ path sheet, included path = some (some sheet) → sheet.Importing

theorem getReferencePath_element (file name : Bytes) (attributes : List (Bytes × Bytes))
    (children next : Sheet) :
    getReferencePath file (.node false file name attributes children next) =
      some (reference file attributes) := by
  unfold getReferencePath Sheet.xmlGetAttr reference
  simp only [Option.bind_eq_bind, Option.bind_some, Option.map_map]
  rfl

section Preprocess

variable {files : Bytes → Option Forest} {included : Bytes → Option (Option Sheet)}

/-- What `xsl_preprocess` reads at an element. -/
theorem Serves.expansion (serves : Serves files included) (file name : Bytes)
    (attributes : List (Bytes × Bytes)) (children next : Sheet) :
    readReference xslInclude included file name
        (.node false file name attributes children next) =
      match replacement files file name attributes with
      | some path => included path
      | none => some none := by
  unfold readReference replacement
  rw [getReferencePath_element]
  split
  · simp only [Option.bind_eq_bind, Option.bind_some]
    cases reference file attributes with
    | none => rfl
    | some path =>
        cases there : files path with
        | none =>
            rw [Option.filter_some, there]
            exact (serves.missing path).mpr there
        | some forest =>
            rw [Option.filter_some, there]
            rfl
  · rfl

/-- What is read in the place of an element is there. -/
theorem replacement_some {file name path : Bytes} {attributes : List (Bytes × Bytes)}
    (replaced : replacement files file name attributes = some path) :
    name = xslInclude ∧ (files path).isSome := by
  unfold replacement at replaced
  split at replaced
  next named => exact ⟨named, (Option.filter_eq_some_iff.mp replaced).2⟩
  · cases replaced

theorem includeReferences_hidden (files : Bytes → Option Forest) (file path : Bytes)
    (forest : Forest) :
    (path, false) ∉ includeReferences files file true forest := by
  induction forest with
  | nil => exact nofun
  | text content flags next nextHypothesis => exact nextHypothesis
  | element name attributes children next childrenHypothesis nextHypothesis =>
      rw [includeReferences]
      split
      · intro member
        rcases List.mem_cons.mp member with same | later
        · cases same
        · exact nextHypothesis later
      · intro member
        rcases List.mem_append.mp member with below | later
        · exact childrenHypothesis below
        · exact nextHypothesis later

/-- `xsl_preprocess` comes to an end where all files that are included do; then
the imports are those of the file and of the files included. -/
theorem Serves.preprocess (serves : Serves files included) (file : Bytes) (forest : Forest)
    (parent : Bytes) :
    (∀ hidden, (xslPreprocess included parent (.ofForest file forest)).isSome ↔
        ∀ entry ∈ includeReferences files file hidden forest, (included entry.1).isSome) ∧
      ∀ sheet, xslPreprocess included parent (.ofForest file forest) = some sheet →
        sheet.Importing ∧ ∀ path, path ∈ sheet.imports ↔
          path ∈ importReferences files file forest ∨ Exists fun other =>
            (other, false) ∈ includeReferences files file false forest ∧
              Exists fun inner => included other = some (some inner) ∧ path ∈ inner.imports := by
  induction forest generalizing parent with
  | nil =>
      constructor
      · exact fun _ => ⟨fun _ => List.forall_mem_nil _, fun _ => rfl⟩
      · rintro sheet ⟨⟩
        exact ⟨trivial, fun path => by simp [Sheet.imports, importReferences, includeReferences]⟩
  | text content flags next nextHypothesis =>
      have later := nextHypothesis parent
      rw [Sheet.ofForest, xslPreprocess]
      cases rest : xslPreprocess included parent (.ofForest file next) with
      | none =>
          rw [rest] at later
          exact ⟨later.1, nofun⟩
      | some sheet =>
          rw [rest] at later
          have here := later.2 sheet rfl
          simp only [Option.bind_eq_bind, Option.bind_some]
          split
          · exact later
          · refine ⟨fun hidden => ⟨fun _ => (later.1 hidden).mp rfl, fun _ => rfl⟩, ?_⟩
            rintro _ ⟨⟩
            exact here
  | element name attributes children next childrenHypothesis nextHypothesis =>
      have later := nextHypothesis parent
      have below := childrenHypothesis name
      rw [Sheet.ofForest, xslPreprocess, serves.expansion]
      simp only [includeReferences, importReferences]
      cases replaced : replacement files file name attributes with
      | some path =>
          rcases replacement_some replaced with ⟨named, there⟩
          have notImport : name ≠ xslImport := by
            rw [named]
            decide
          dsimp only
          cases inner : included path with
          | none =>
              refine ⟨fun hidden => ⟨nofun, fun all => ?_⟩, nofun⟩
              have found := all (path, hidden) List.mem_cons_self
              rw [inner] at found
              cases found
          | some sheet =>
              cases sheet with
              | none =>
                  rw [(serves.missing path).mp inner] at there
                  cases there
              | some sheet =>
                  simp only [Option.bind_eq_bind, Option.bind_some]
                  cases rest : xslPreprocess included parent (.ofForest file next) with
                  | none =>
                      rw [rest] at later
                      refine ⟨fun hidden => ⟨nofun, fun all => ?_⟩, nofun⟩
                      exact (later.1 hidden).mpr fun other member =>
                        all other (List.mem_cons_of_mem _ member)
                  | some rest_ =>
                      rw [rest] at later
                      have here := later.2 rest_ rfl
                      constructor
                      · refine fun hidden => ⟨fun _ => List.forall_mem_cons.mpr
                          ⟨?_, (later.1 hidden).mp rfl⟩, fun _ => rfl⟩
                        rw [inner]
                        rfl
                      · rintro _ ⟨⟩
                        refine ⟨⟨fun import_ => absurd import_ notImport,
                          serves.importing path sheet inner, here.1⟩, fun other => ?_⟩
                        rw [Sheet.imports, if_neg notImport, List.mem_append, here.2]
                        simp only [List.mem_cons, Prod.mk.injEq, and_true, exists_eq_or_imp,
                          inner, Option.some.injEq, exists_eq_left']
                        exact or_left_comm
      | none =>
          dsimp only
          simp only [Option.bind_eq_bind, Option.bind_some]
          cases deep : xslPreprocess included name (.ofForest file children) with
          | none =>
              rw [deep] at below
              refine ⟨fun hidden => ⟨nofun, fun all => ?_⟩, nofun⟩
              exact (below.1 _).mpr fun other member => all other (List.mem_append_left _ member)
          | some inside =>
              rw [deep] at below
              have deeper := below.2 inside rfl
              cases rest : xslPreprocess included parent (.ofForest file next) with
              | none =>
                  rw [rest] at later
                  refine ⟨fun hidden => ⟨nofun, fun all => ?_⟩, nofun⟩
                  exact (later.1 hidden).mpr fun other member =>
                    all other (List.mem_append_right _ member)
              | some rest_ =>
                  rw [rest] at later
                  have here := later.2 rest_ rfl
                  constructor
                  · refine fun hidden => ⟨fun _ other member => ?_, fun _ => rfl⟩
                    rcases List.mem_append.mp member with inside_ | behind
                    · exact (below.1 _).mp rfl other inside_
                    · exact (later.1 hidden).mp rfl other behind
                  · rintro _ ⟨⟩
                    refine ⟨⟨fun _ => rfl, deeper.1, here.1⟩, fun other => ?_⟩
                    rw [Sheet.imports, Bool.false_or]
                    by_cases import_ : name = xslImport
                    · have none_ := includeReferences_hidden files file
                      simp only [import_, if_true, decide_true, List.mem_append, here.2, none_,
                        false_or, or_assoc]
                    · simp only [import_, if_false, decide_false, List.mem_append, here.2,
                        deeper.2, or_and_right, exists_or]
                      exact or_or_or_comm

/-- `process_imports` comes to an end where all files that it reads do. -/
theorem processImports_isSome {imported : Bytes → Option (Option Sheet)} {sheet : Sheet}
    (importing : sheet.Importing) :
    (processImports imported sheet).isSome ↔ ∀ path ∈ sheet.imports, (imported path).isSome := by
  induction sheet with
  | nil => exact ⟨fun _ => List.forall_mem_nil _, fun _ => rfl⟩
  | text content next nextHypothesis =>
      rw [processImports, Sheet.imports, ← nextHypothesis importing]
      cases processImports imported next <;> rfl
  | node empty file name attributes children next childrenHypothesis nextHypothesis =>
      rcases importing with ⟨element, inside, behind⟩
      have later := nextHypothesis behind
      rw [processImports, Sheet.imports]
      split
      next named =>
        cases element named
        rw [readReference, if_pos named, getReferencePath_element]
        cases reference file attributes with
        | none =>
            rw [Option.toList_none, List.nil_append, ← later]
            cases processImports imported next <;> rfl
        | some path =>
            rw [Option.toList_some, List.singleton_append, List.forall_mem_cons, ← later]
            simp only [Option.bind_eq_bind, Option.bind_some]
            cases imported path with
            | none => exact ⟨nofun, nofun⟩
            | some file_ => cases file_ <;> cases processImports imported next <;> simp
      · rw [List.forall_mem_append, ← later, ← childrenHypothesis inside]
        cases processImports imported children <;> cases processImports imported next <;> simp

theorem preprocess_root (path parent : Bytes) (forest : Forest) :
    xslPreprocess included parent (.root path forest) =
      (xslPreprocess included xslSRoot (.ofForest path forest)).map fun children =>
        .node true path xslSRoot [] children .nil := by
  have other : xslSRoot ≠ xslInclude := by decide
  rw [Sheet.root, xslPreprocess, readReference, if_neg other]
  cases xslPreprocess included xslSRoot (.ofForest path forest) <;> rfl

theorem includedSheet_succ {fuel : Nat} {path : Bytes} {forest : Forest}
    (there : files path = some forest) :
    includedSheet files (fuel + 1) path =
      (xslPreprocess (includedSheet files fuel) xslSRoot (.ofForest path forest)).map
        fun children => some (.node true path xslSRoot [] children .nil) := by
  rw [includedSheet, there]
  change (xslPreprocess _ _ _).bind _ = _
  rw [preprocess_root]
  cases xslPreprocess (includedSheet files fuel) xslSRoot (.ofForest path forest) <;> rfl

theorem serves_included (fuel : Nat) : Serves files (includedSheet files fuel) := by
  induction fuel with
  | zero =>
      constructor
      · intro path
        rw [includedSheet]
        cases files path with
        | none => exact ⟨fun _ => rfl, fun _ => rfl⟩
        | some forest => exact ⟨nofun, nofun⟩
      · intro path sheet read
        rw [includedSheet] at read
        split at read <;> cases read
  | succ fuel inductionHypothesis =>
      constructor
      · intro path
        cases there : files path with
        | none =>
            rw [includedSheet, there]
            exact ⟨fun _ => rfl, fun _ => rfl⟩
        | some forest =>
            rw [includedSheet_succ there]
            cases xslPreprocess (includedSheet files fuel) xslSRoot (.ofForest path forest) <;>
              exact ⟨nofun, nofun⟩
      · intro path sheet read
        cases there : files path with
        | none =>
            rw [includedSheet, there] at read
            cases read
        | some forest =>
            rw [includedSheet_succ there] at read
            rcases Option.map_eq_some_iff.mp read with ⟨children, done, same⟩
            cases same
            have spec := (inductionHypothesis.preprocess path forest xslSRoot).2 children done
            exact ⟨fun named => absurd named (by decide), spec.1, trivial⟩

/-- What a file that is included includes and imports itself. -/
theorem includedSheet_spec (fuel : Nat) {path : Bytes} {forest : Forest}
    (there : files path = some forest) :
    ((includedSheet files (fuel + 1) path).isSome ↔
        ∀ entry ∈ includeReferences files path false forest,
          (includedSheet files fuel entry.1).isSome) ∧
      ∀ sheet, includedSheet files (fuel + 1) path = some (some sheet) →
        ∀ name, name ∈ sheet.imports ↔ name ∈ importReferences files path forest ∨
          Exists fun other => (other, false) ∈ includeReferences files path false forest ∧
            Exists fun inner => includedSheet files fuel other = some (some inner) ∧
              name ∈ inner.imports := by
  have spec := (serves_included fuel : Serves files _).preprocess path forest xslSRoot
  rw [includedSheet_succ there, Option.isSome_map]
  refine ⟨spec.1 false, fun sheet read name => ?_⟩
  rcases Option.map_eq_some_iff.mp read with ⟨children, done, same⟩
  cases same
  have other : xslSRoot ≠ xslImport := by decide
  rw [← (spec.2 children done).2 name, Sheet.imports, if_neg other]
  exact List.mem_append.trans (or_iff_left (List.not_mem_nil))

theorem importedSheet_spec {fuel : Nat} {path : Bytes} {forest : Forest}
    (there : files path = some forest) :
    (importedSheet files (fuel + 1) path).isSome ↔
      Exists fun sheet => includedSheet files (fuel + 1) path = some (some sheet) ∧
        ∀ name ∈ sheet.imports, (importedSheet files fuel name).isSome := by
  have same : importedSheet files (fuel + 1) path =
      (includedSheet files (fuel + 1) path).bind fun sheet => sheet.elim none fun sheet =>
        (processImports (importedSheet files fuel) sheet).map some := by
    rw [importedSheet, includedSheet, there]
    change (xslPreprocess _ _ _).bind _ = ((xslPreprocess _ _ _).bind _).bind _
    cases xslPreprocess (includedSheet files fuel) [] (.root path forest) with
    | none => rfl
    | some included =>
        change (processImports _ included).bind _ = (processImports _ included).map some
        cases processImports (importedSheet files fuel) included <;> rfl
  rw [same]
  cases read : includedSheet files (fuel + 1) path with
  | none => exact ⟨nofun, nofun⟩
  | some sheet =>
      cases sheet with
      | none =>
          rw [((serves_included (fuel + 1)).missing path).mp read] at there
          cases there
      | some sheet =>
          have importing := (serves_included (fuel + 1)).importing path sheet read
          change ((processImports _ sheet).map some).isSome ↔ _
          rw [Option.isSome_map, processImports_isSome importing]
          constructor
          · exact fun all => ⟨sheet, rfl, all⟩
          · rintro ⟨_, ⟨⟩, all⟩
            exact all

end Preprocess

/-! ## Enough fuel -/

section Fuel

variable {files : Bytes → Option Forest}

/-- More fuel does not change what is read. -/
theorem xslPreprocess_mono {included more : Bytes → Option (Option Sheet)}
    (grows : ∀ path sheet, included path = some sheet → more path = some sheet)
    {parent : Bytes} {sheet after : Sheet} (done : xslPreprocess included parent sheet = some after) :
    xslPreprocess more parent sheet = some after := by
  induction sheet generalizing parent after with
  | nil => exact done
  | text content next nextHypothesis =>
      rw [xslPreprocess] at done ⊢
      rcases Option.bind_eq_some_iff.mp done with ⟨rest, tail, same⟩
      rw [nextHypothesis tail]
      exact same
  | node empty file name attributes children next childrenHypothesis nextHypothesis =>
      rw [xslPreprocess] at done ⊢
      rcases Option.bind_eq_some_iff.mp done with ⟨file_, read, done⟩
      have same : readReference xslInclude more file name
          (.node empty file name attributes children next) = some file_ := by
        rw [readReference] at read ⊢
        split
        next named =>
          rw [if_pos named] at read
          rcases Option.bind_eq_some_iff.mp read with ⟨path, found, read⟩
          rw [found]
          cases path with
          | none => exact read
          | some path => exact grows path file_ read
        next other =>
          rw [if_neg other] at read
          exact read
      rw [same]
      cases file_ with
      | some sheet =>
          rcases Option.bind_eq_some_iff.mp done with ⟨rest, tail, last⟩
          change (xslPreprocess more parent next).bind _ = _
          rw [nextHypothesis tail]
          exact last
      | none =>
          rcases Option.bind_eq_some_iff.mp done with ⟨inside, deep, done⟩
          rcases Option.bind_eq_some_iff.mp done with ⟨rest, tail, last⟩
          change (xslPreprocess more name children).bind _ = _
          rw [childrenHypothesis deep]
          change (xslPreprocess more parent next).bind _ = _
          rw [nextHypothesis tail]
          exact last

theorem includedSheet_mono {fuel more : Nat} (enough : fuel ≤ more) {path : Bytes}
    {sheet : Option Sheet} (read : includedSheet files fuel path = some sheet) :
    includedSheet files more path = some sheet := by
  induction fuel generalizing more path sheet with
  | zero =>
      rw [includedSheet] at read
      cases there : files path with
      | none =>
          rw [there] at read
          cases read
          exact ((serves_included more).missing path).mpr there
      | some forest =>
          rw [there] at read
          cases read
  | succ fuel inductionHypothesis =>
      cases more with
      | zero => cases enough
      | succ more =>
          cases there : files path with
          | none =>
              rw [includedSheet, there] at read ⊢
              exact read
          | some forest =>
              rw [includedSheet_succ there] at read ⊢
              rcases Option.map_eq_some_iff.mp read with ⟨children, done, same⟩
              have grows : ∀ path sheet, includedSheet files fuel path = some sheet →
                  includedSheet files more path = some sheet := fun _ _ =>
                inductionHypothesis (Nat.le_of_succ_le_succ enough)
              rw [xslPreprocess_mono grows done]
              exact congrArg some same

theorem importedSheet_missing (fuel : Nat) {path : Bytes} (missing : files path = none) :
    (importedSheet files fuel path).isSome := by
  cases fuel <;> rw [importedSheet, missing] <;> rfl

theorem importedSheet_mono {fuel more : Nat} (enough : fuel ≤ more) {path : Bytes}
    (read : (importedSheet files fuel path).isSome) : (importedSheet files more path).isSome := by
  induction fuel generalizing more path with
  | zero =>
      cases there : files path with
      | none => exact importedSheet_missing more there
      | some forest =>
          rw [importedSheet, there] at read
          cases read
  | succ fuel inductionHypothesis =>
      cases more with
      | zero => cases enough
      | succ more =>
          cases there : files path with
          | none => exact importedSheet_missing _ there
          | some forest =>
              rcases (importedSheet_spec there).mp read with ⟨sheet, included, all⟩
              refine (importedSheet_spec there).mpr
                ⟨sheet, includedSheet_mono enough included, fun name member => ?_⟩
              exact inductionHypothesis (Nat.le_of_succ_le_succ enough) (all name member)

/-- For finitely many things that each need some fuel, some fuel is enough. -/
theorem exists_fuel {Thing : Type} (property : Nat → Thing → Prop)
    (mono : ∀ fuel more thing, fuel ≤ more → property fuel thing → property more thing)
    {things : List Thing} (each : ∀ thing ∈ things, Exists fun fuel => property fuel thing) :
    Exists fun fuel => ∀ thing ∈ things, property fuel thing := by
  induction things with
  | nil => exact ⟨0, List.forall_mem_nil _⟩
  | cons first rest inductionHypothesis =>
      rcases List.forall_mem_cons.mp each with ⟨⟨one, here⟩, others⟩
      rcases inductionHypothesis others with ⟨other, there⟩
      refine ⟨max one other, List.forall_mem_cons.mpr ⟨?_, fun thing member => ?_⟩⟩
      · exact mono _ _ _ (Nat.le_max_left _ _) here
      · exact mono _ _ _ (Nat.le_max_right _ _) (there thing member)

/-! ## Infinite chains of references -/

theorem acc_missing {loading : Loading} (missing : files loading.path = none) :
    Acc (Refers files) loading := by
  refine .intro _ fun other refers => ?_
  cases refers with
  | include_ imports there => cases missing.symm.trans there
  | import_ there => cases missing.symm.trans there

/-- What is included in finite depth has no infinite chain below it, but for
those that begin with its imports. -/
theorem acc_of_included {fuel : Nat} {path : Bytes} :
    ((includedSheet files fuel path).isSome → Acc (Refers files) ⟨path, false⟩) ∧
      ∀ sheet, includedSheet files fuel path = some (some sheet) →
        (∀ name ∈ sheet.imports, Acc (Refers files) ⟨name, true⟩) →
        Acc (Refers files) ⟨path, true⟩ := by
  induction fuel generalizing path with
  | zero =>
      cases there : files path with
      | none => exact ⟨fun _ => acc_missing there, fun _ _ _ => acc_missing there⟩
      | some forest =>
          rw [includedSheet, there]
          exact ⟨nofun, nofun⟩
  | succ fuel inductionHypothesis =>
      cases there : files path with
      | none => exact ⟨fun _ => acc_missing there, fun _ _ _ => acc_missing there⟩
      | some forest =>
          have spec := includedSheet_spec fuel there
          constructor
          · intro read
            refine .intro _ fun other refers => ?_
            cases refers with
            | include_ imports found named =>
                cases there.symm.trans found
                exact inductionHypothesis.1 (spec.1.mp read _ named)
          · intro sheet read imports
            refine .intro _ fun other refers => ?_
            cases refers with
            | @include_ inner _ hidden _ _ found named =>
                cases there.symm.trans found
                have deep := spec.1.mp (Option.isSome_iff_exists.mpr ⟨_, read⟩) _ named
                cases hidden with
                | true => exact inductionHypothesis.1 deep
                | false =>
                    rcases Option.isSome_iff_exists.mp deep with ⟨file_, deeper⟩
                    cases file_ with
                    | none => exact acc_missing (((serves_included fuel).missing inner).mp deeper)
                    | some below =>
                        refine inductionHypothesis.2 below deeper fun name member => ?_
                        exact imports name ((spec.2 sheet read name).mpr
                          (.inr ⟨inner, named, below, deeper, member⟩))
            | @import_ inner _ _ found named =>
                cases there.symm.trans found
                exact imports inner ((spec.2 sheet read inner).mpr (.inl named))

theorem acc_of_imported {fuel : Nat} {path : Bytes}
    (read : (importedSheet files fuel path).isSome) : Acc (Refers files) ⟨path, true⟩ := by
  induction fuel generalizing path with
  | zero =>
      cases there : files path with
      | none => exact acc_missing there
      | some forest =>
          rw [importedSheet, there] at read
          cases read
  | succ fuel inductionHypothesis =>
      cases there : files path with
      | none => exact acc_missing there
      | some forest =>
          rcases (importedSheet_spec there).mp read with ⟨sheet, included, all⟩
          exact acc_of_included.2 sheet included fun name member =>
            inductionHypothesis (all name member)

theorem included_of_acc {loading : Loading} (acc : Acc (Refers files) loading) :
    Exists fun fuel => (includedSheet files fuel loading.path).isSome := by
  induction acc with
  | intro loading _ inductionHypothesis =>
      cases there : files loading.path with
      | none => exact ⟨0, by rw [includedSheet, there]; rfl⟩
      | some forest =>
          have each : ∀ entry ∈ includeReferences files loading.path false forest,
              Exists fun fuel => (includedSheet files fuel entry.1).isSome := fun entry member =>
            inductionHypothesis _ (.include_ _ there member)
          rcases exists_fuel (fun fuel (entry : Bytes × Bool) =>
            (includedSheet files fuel entry.1).isSome) (fun _ _ _ enough read => by
              rcases Option.isSome_iff_exists.mp read with ⟨sheet, read⟩
              exact Option.isSome_iff_exists.mpr ⟨sheet, includedSheet_mono enough read⟩)
            each with ⟨fuel, all⟩
          exact ⟨fuel + 1, (includedSheet_spec _ there).1.mpr all⟩

/-- What the imports of a file are read for. -/
theorem refers_of_imports {fuel : Nat} {path name : Bytes} {sheet : Sheet}
    (read : includedSheet files fuel path = some (some sheet)) (member : name ∈ sheet.imports) :
    Relation.TransGen (Refers files) ⟨name, true⟩ ⟨path, true⟩ := by
  induction fuel generalizing path sheet with
  | zero =>
      rw [includedSheet] at read
      split at read <;> cases read
  | succ fuel inductionHypothesis =>
      cases there : files path with
      | none =>
          rw [includedSheet, there] at read
          cases read
      | some forest =>
          rcases ((includedSheet_spec _ there).2 sheet read name).mp member with
            direct | ⟨other, named, inner, deeper, below⟩
          · exact .single (.import_ there direct)
          · exact (inductionHypothesis deeper below).tail
              (.include_ true there named)

theorem imported_of_acc {loading : Loading} (acc : Acc (Relation.TransGen (Refers files)) loading)
    (imports : loading.imports = true) :
    Exists fun fuel => (importedSheet files fuel loading.path).isSome := by
  induction acc with
  | intro loading accessible inductionHypothesis =>
      rcases loading with ⟨path, flag⟩
      cases imports
      cases there : files path with
      | none => exact ⟨0, importedSheet_missing 0 there⟩
      | some forest =>
          have acc : Acc (Refers files) ⟨path, true⟩ :=
            .intro _ fun other refers =>
              Subrelation.accessible (fun refers => .single refers) (accessible other (.single refers))
          rcases included_of_acc acc with ⟨fuel, read⟩
          rcases Option.isSome_iff_exists.mp read with ⟨file_, read⟩
          cases file_ with
          | none => cases (((serves_included fuel).missing path).mp read).symm.trans there
          | some sheet =>
              rcases exists_fuel (fun fuel name =>
                (importedSheet files fuel name).isSome)
                (fun _ _ _ enough read => importedSheet_mono enough read)
                (fun name member => inductionHypothesis ⟨name, true⟩
                  (refers_of_imports read member) rfl) with ⟨other, all⟩
              refine ⟨max fuel other + 1, (importedSheet_spec there).mpr ⟨sheet, ?_, ?_⟩⟩
              · exact includedSheet_mono (Nat.le_succ_of_le (Nat.le_max_left _ _)) read
              · exact fun name member => importedSheet_mono (Nat.le_max_right _ _) (all name member)

/-- `XSLTNewProcessor` expands the stylesheet as a file that is imported. -/
theorem xsltNewProcessor_isSome (fuel : Nat) (stylesheet : Bytes) :
    (xsltNewProcessor files fuel stylesheet).isSome ↔
      (importedSheet files (fuel + 1) stylesheet).isSome := by
  rw [xsltNewProcessor, importedSheet]
  cases files stylesheet with
  | none => exact Iff.rfl
  | some forest =>
      dsimp only
      rw [preprocess_root]
      have other : xslSRoot ≠ xslImport := by decide
      cases xslPreprocess (includedSheet files fuel) xslSRoot (.ofForest stylesheet forest) with
      | none => exact Iff.rfl
      | some children =>
          simp only [Option.map_some, Option.bind_eq_bind, Option.bind_some, processImports,
            if_neg other]
          cases processImports (importedSheet files fuel) children <;> exact Iff.rfl

theorem terminates_iff_acc (stylesheet : Bytes) :
    Terminates files stylesheet ↔ Acc (Refers files) ⟨stylesheet, true⟩ := by
  constructor
  · rintro ⟨fuel, done⟩
    exact acc_of_imported ((xsltNewProcessor_isSome fuel stylesheet).mp done)
  · intro acc
    rcases imported_of_acc acc.transGen rfl with ⟨fuel, read⟩
    exact ⟨fuel, (xsltNewProcessor_isSome fuel stylesheet).mpr
      (importedSheet_mono (Nat.le_succ fuel) read)⟩

end Fuel

/-- Loading a stylesheet comes to an end just if no infinite chain of
references begins with it. -/
theorem loading_terminates_iff (files : Bytes → Option Forest) (stylesheet : Bytes) :
    Terminates files stylesheet ↔
      ¬ Exists fun chain : Nat → Loading => chain 0 = ⟨stylesheet, true⟩ ∧
        ∀ n, Refers files (chain (n + 1)) (chain n) := by
  rw [terminates_iff_acc, acc_iff_isEmpty_descending_chain, isEmpty_subtype]
  exact not_exists.symm

/-- A stylesheet that includes itself. -/
def selfIncluding (path : Bytes) : Option Forest :=
  if path = lit "self.xsl" then
    some (.element xslInclude [(xslAHref, lit "self.xsl")] .nil .nil)
  else none

theorem self_including_never_loads :
    ¬ ∀ files : Bytes → Option Forest, ∀ stylesheet, Terminates files stylesheet := by
  intro all
  have acc := (terminates_iff_acc _).mp (all selfIncluding (lit "self.xsl"))
  have refers : Refers selfIncluding ⟨lit "self.xsl", true⟩ ⟨lit "self.xsl", true⟩ :=
    .include_ true (if_pos rfl) (show (_, false) ∈ _ by decide)
  exact (acc_iff_isEmpty_descending_chain.mp acc).false ⟨fun _ => _, rfl, fun _ => refers⟩

end TurboXSL
