import TurboXSL.ScanRuns

namespace TurboXSL

open Library

namespace Compile

/-!
# How compiling ends

The scan of a text ends in one way only, and the compiler with it: it returns
where the scan ends, it fails where the scan fails, and it runs for ever where
the scan stalls.
-/

/-- Some allowance is not used up. -/
def Terminates (expr : CString) : Prop :=
  Exists fun budget => Exists fun depth => xpathCompile budget depth expr ≠ .error .running

/-- No allowance leads beyond the NUL or through a NULL pointer. -/
def MemorySafe (expr : CString) : Prop :=
  ∀ budget depth, xpathCompile budget depth expr ≠ .error .overread ∧
    xpathCompile budget depth expr ≠ .error .nullDeref

/-- A tree is returned, no error has been reported, and `rest` has not been
read. -/
def Accepts (expr : CString) (node : Expr) (rest : Bytes) : Prop :=
  node ≠ .null ∧
    Exists fun budget => Exists fun depth => xpathCompile budget depth expr = .ok (node, rest, false)

theorem ample_enough (expr : CString) :
    Scan.Ample enough (expr.bytes.length + 1) expr.bytes :=
  ⟨fun length => Nat.lt_succ_self length, Nat.lt_succ_of_le (Scan.skipSpaces_le expr.bytes)⟩

/-- With a turn for every byte the compiler ends as the scan does. -/
theorem xpathCompile_enough (expr : CString) :
    match xpathCompile enough (expr.bytes.length + 1) expr with
    | .ok (node, rest, _) => Scan.Scans expr (.ends (decide (node = .null)) (skipSpaces rest))
    | .error halt => Scan.Scans expr halt.verdict := by
  have scans := Scan.xpathCompile_scans enough (expr.bytes.length + 1) expr
  cases outcome : xpathCompile enough (expr.bytes.length + 1) expr with
  | ok result =>
      rw [outcome] at scans
      exact scans
  | error halt =>
      rw [outcome] at scans
      exact scans fun _ => ample_enough expr

/-- A failure of the compiler is the one the scan ends with. -/
theorem failure_scans {budget : Nat → Nat} {depth : Nat} {expr : CString} {halt : Halt}
    (fails : xpathCompile budget depth expr = .error halt) (real : halt ≠ .running) :
    Scan.Scans expr halt.verdict := by
  have scans := Scan.xpathCompile_scans budget depth expr
  rw [fails] at scans
  exact scans fun running => absurd running real

theorem result_scans {budget : Nat → Nat} {depth : Nat} {expr : CString} {node : Expr}
    {rest : Bytes} {reported : Bool}
    (returns : xpathCompile budget depth expr = .ok (node, rest, reported)) :
    Scan.Scans expr (.ends (decide (node = .null)) (skipSpaces rest)) := by
  have scans := Scan.xpathCompile_scans budget depth expr
  rw [returns] at scans
  exact scans

/-- Compiling ends unless the scan stands, inside the arguments of a call, in
front of something that neither begins nor separates arguments. -/
theorem compile_terminates_iff (expr : CString) :
    Terminates expr ↔ ¬ Exists fun p => Exists fun stack =>
      Reaches Scan.pass (Scan.start expr.bytes) ⟨.arguments, p, stack⟩ ∧
        byteAt p ≠ ')'.toUInt8 ∧ Scan.stuck p = true := by
  have stalls : Scan.Scans expr .stalls ↔ Exists fun p => Exists fun stack =>
      Reaches Scan.pass (Scan.start expr.bytes) ⟨.arguments, p, stack⟩ ∧
        byteAt p ≠ ')'.toUInt8 ∧ Scan.stuck p = true := by
    unfold Scan.Scans
    rw [returns_iff_reaches_stop]
    constructor
    · rintro ⟨⟨mode, p, stack⟩, reached, stop⟩
      rcases Scan.pass_stalls.mp stop with ⟨rfl, stays⟩
      exact ⟨p, stack, reached, stays⟩
    · rintro ⟨p, stack, reached, stays⟩
      exact ⟨_, reached, Scan.pass_stalls.mpr ⟨rfl, stays⟩⟩
  rw [← stalls]
  constructor
  · rintro ⟨budget, depth, ended⟩ stalled
    cases outcome : xpathCompile budget depth expr with
    | ok result =>
        rcases result with ⟨node, rest, reported⟩
        exact absurd ((result_scans outcome).unique stalled) nofun
    | error halt =>
        cases halt with
        | running => exact ended outcome
        | nullDeref => exact absurd ((failure_scans outcome nofun).unique stalled) nofun
        | overread => exact absurd ((failure_scans outcome nofun).unique stalled) nofun
  · intro moves
    refine ⟨enough, expr.bytes.length + 1, ?_⟩
    intro running
    have scans := xpathCompile_enough expr
    rw [running] at scans
    exact moves scans

/-- A text on which no allowance is enough. -/
def unclosed : CString where
  bytes := lit "f(]"
  noNul := by decide

theorem unclosed_runs : ¬ ∀ expr, Terminates expr := by
  intro always
  rcases always unclosed with ⟨budget, depth, ended⟩
  have stalled : Scan.Scans unclosed .stalls := ⟨6, by decide⟩
  cases outcome : xpathCompile budget depth unclosed with
  | ok result =>
      rcases result with ⟨node, rest, reported⟩
      exact absurd ((result_scans outcome).unique stalled) nofun
  | error halt =>
      cases halt with
      | running => exact ended outcome
      | nullDeref => exact absurd ((failure_scans outcome nofun).unique stalled) nofun
      | overread => exact absurd ((failure_scans outcome nofun).unique stalled) nofun

/-- Compiling is safe unless the scan meets the end of the text where a name or
a closing bracket must stand, or an operator or a filter whose operand is
missing. -/
theorem memorySafe_iff (expr : CString) :
    MemorySafe expr ↔ ¬ Scan.Scans expr .overread ∧ ¬ Scan.Scans expr .nullDeref := by
  constructor
  · intro safe
    have known := safe enough (expr.bytes.length + 1)
    have scans := xpathCompile_enough expr
    cases outcome : xpathCompile enough (expr.bytes.length + 1) expr with
    | ok result =>
        rw [outcome] at scans
        exact ⟨fun other => absurd (scans.unique other) nofun,
          fun other => absurd (scans.unique other) nofun⟩
    | error halt =>
        rw [outcome] at scans known
        cases halt with
        | running =>
            exact ⟨fun other => absurd (scans.unique other) nofun,
              fun other => absurd (scans.unique other) nofun⟩
        | nullDeref => exact absurd rfl known.2
        | overread => exact absurd rfl known.1
  · rintro ⟨inside, there⟩ budget depth
    exact ⟨fun fails => inside (failure_scans fails nofun),
      fun fails => there (failure_scans fails nofun)⟩

/-- A text that is only a slash is read beyond its end. -/
def slashOnly : CString where
  bytes := lit "/"
  noNul := by decide

/-- A filter of nothing. -/
def filterOnly : CString where
  bytes := lit "[1]"
  noNul := by decide

theorem slash_overread : ¬ MemorySafe slashOnly ∧ ¬ MemorySafe filterOnly := by
  constructor
  · intro safe
    exact (safe enough 2).1 rfl
  · intro safe
    exact (safe enough 4).2 rfl

/-- What is accepted without a report has been read to its end exactly where the
scan never stands behind an operand, outside all brackets, in front of
something else than an operator. -/
theorem accepts_whole_iff (expr : CString) (node : Expr) (rest : Bytes)
    (accepts : Accepts expr node rest) :
    skipSpaces rest = [] ↔ ¬ Exists fun p => Exists fun barred =>
      Reaches Scan.pass (Scan.start expr.bytes) ⟨.complete barred, p, []⟩ ∧ p ≠ [] ∧
        Scan.Leftover barred p [] := by
  rcases accepts with ⟨there, budget, depth, returns⟩
  have scans := result_scans returns
  rw [decide_eq_false there] at scans
  constructor
  · rintro whole ⟨p, barred, reached, nonempty, leftover⟩
    rw [whole] at scans
    have stops : Scan.pass ⟨.complete barred, p, []⟩ = .error (.ends false p) :=
      Scan.pass_ends.mpr ⟨rfl, barred, rfl, leftover⟩
    have ends : Scan.Scans expr (.ends false p) := (reached.returns_iff _).mpr (.of_stop stops)
    injection scans.unique ends with _ same
    exact nonempty same.symm
  · intro whole
    by_contra nonempty
    rcases returns_iff_reaches_stop.mp scans with ⟨⟨mode, p, stack⟩, reached, stop⟩
    rcases Scan.pass_ends.mp stop with ⟨rfl, barred, rfl, leftover⟩
    cases leftover.outside
    exact whole ⟨_, barred, reached, nonempty, leftover⟩

/-- The name of an element, which nothing follows. -/
def plainName : CString where
  bytes := lit "a"
  noNul := by decide

theorem plainName_whole : skipSpaces [] = [] ↔ ¬ Exists fun p => Exists fun barred =>
    Reaches Scan.pass (Scan.start plainName.bytes) ⟨.complete barred, p, []⟩ ∧ p ≠ [] ∧
      Scan.Leftover barred p [] :=
  accepts_whole_iff plainName (.selectStep (lit "a") (.leaf { type := .context })) []
    ⟨nofun, enough, 2, by decide +kernel⟩

/-- An axis with a node test in brackets, alone. -/
def childNode : CString where
  bytes := lit "child::node()"
  noNul := by decide

theorem childNode_tree : xpathCompile enough 14 childNode =
    .ok (.node { type := .select, kind := some (.call (lit "node")) }
      (.leaf { type := .context }) .null, lit ")", false) := by
  decide +kernel

theorem childNode_truncated :
    ¬ ∀ expr node rest, Accepts expr node rest → skipSpaces rest = [] := by
  intro whole
  have accepts : Accepts childNode (.node { type := .select, kind := some (.call (lit "node")) }
      (.leaf { type := .context }) .null) (lit ")") := ⟨nofun, enough, 14, childNode_tree⟩
  exact absurd (whole _ _ _ accepts) (by decide)

end Compile

end TurboXSL
