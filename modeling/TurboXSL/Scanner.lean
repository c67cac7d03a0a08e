import TurboXSL.Compile
import TurboXSL.Library.Machine

namespace TurboXSL

open Library

namespace Scan

/-!
# Scanning an expression

What the compiler does to its text, without the trees and without the
recursion: one pass over the bytes with a stack of the brackets that are
open.  An operand is read, then operators are looked for; where no operand
begins, it is missing, and the scan remembers the loosest level whose
operator would follow the NULL pointer that stands for it.
-/

/-- What the compiler is about to do. -/
inductive Mode where
  /-- read an operand, the first one of all levels from `least` on -/
  | operand (least : Nat)
  /-- read a step -/
  | step
  /-- go on behind an operand that is missing -/
  | missing (least : Nat)
  /-- go on behind an operand; the operators of one level may be barred -/
  | complete (barred : Option Nat)
  /-- read the arguments of a call -/
  | arguments
deriving DecidableEq, Repr

/-- What is open: brackets around an operand, the filter of an operand or of
nothing, a call, or an operator whose left operand is missing. -/
inductive Frame where
  | group (least : Nat)
  | filter (based : Bool)
  | call
  | lost (level : Nat)
deriving DecidableEq, Repr

structure State where
  mode : Mode
  p : Bytes
  stack : List Frame
deriving DecidableEq, Repr

/-- How a scan ends. -/
inductive Verdict where
  | ends (missing : Bool) (rest : Bytes)
  | nullDeref
  | overread
  | stalls
deriving DecidableEq, Repr

/-- The operator under the cursor: its level, and the bytes behind it. -/
def operatorAt (p : Bytes) : Option (Nat × Bytes) :=
  ((matchAt (lit "|") p).map (7, ·)).or <|
  ((mulOperator p).map fun found => (5, found.2)).or <|
  ((addOperator p).map fun found => (4, found.2)).or <|
  ((relOperator p).map fun found => (3, found.2)).or <|
  ((eqOperator p).map fun found => (2, found.2)).or <|
  ((matchAt (lit "and ") p).map (1, ·)).or ((matchAt (lit "or ") p).map (0, ·))

/-- `not` in front of a bracket or white space, where a level looks for it. -/
def notAt (least : Nat) (p : Bytes) : Option Bytes :=
  if least ≤ 6 then
    (matchAt (lit "not") p).filter fun q => byteAt q = '('.toUInt8 || xIsWs (byteAt q)
  else none

/-- Does `do_node2_expr` find something to read? -/
def beginsOperand (p : Bytes) : Bool :=
  byteAt p = '\''.toUInt8 || byteAt p = '('.toUInt8 || xCanNumber p || byteAt p = '$'.toUInt8 ||
    byteAt p = '@'.toUInt8 || xIsSelchar (byteAt p)

/-- Nothing that an argument can begin with, and no comma either. -/
def stuck (p : Bytes) : Bool :=
  !beginsOperand p && byteAt p ≠ '['.toUInt8 && (operatorAt p).isNone && byteAt p ≠ ','.toUInt8

/-- Skip white space and go on. -/
def go (mode : Mode) (p : Bytes) (stack : List Frame) : Except Verdict State :=
  .ok ⟨mode, skipSpaces p, stack⟩

/-- Behind a name; there is none at the end of the text. -/
def named (p : Bytes) (stack : List Frame) : Except Verdict State :=
  match nameAt p with
  | none => .error .overread
  | some (_, rest) => go (.complete none) rest stack

/-- A name that brackets make a call. -/
def nameTest (p : Bytes) (stack : List Frame) : Except Verdict State :=
  match nameAt p with
  | none => .error .overread
  | some (_, rest) =>
      let rest := skipSpaces rest
      if byteAt rest = '('.toUInt8 then go .arguments rest.tail (.call :: stack)
      else go (.complete none) rest stack

/-- A node test behind an axis; its closing bracket is not passed. -/
def axisTest (p : Bytes) (stack : List Frame) : Except Verdict State :=
  if byteAt p = '*'.toUInt8 then go (.complete none) p.tail stack
  else
    match nameAt p with
    | none => .error .overread
    | some (_, rest) =>
        if byteAt rest = '('.toUInt8 then
          let closing := rest.dropWhile (· ≠ ')'.toUInt8)
          if closing = [] then .error .overread else go (.complete none) closing stack
        else go (.complete none) rest stack

/-- An operand. -/
def operand (least : Nat) (p : Bytes) (stack : List Frame) : Except Verdict State :=
  match notAt least p with
  | some q => go (.operand 6) q stack
  | none =>
      if byteAt p = '\''.toUInt8 then
        go (.complete none) (p.tail.dropWhile (· ≠ '\''.toUInt8)).tail stack
      else if byteAt p = '('.toUInt8 then go (.operand 0) p.tail (.group least :: stack)
      else if xCanNumber p then
        match numberExpr p with
        | none => .error .overread
        | some (_, rest) => go (.complete none) rest stack
      else if byteAt p = '$'.toUInt8 then named p.tail stack
      else if byteAt p = '@'.toUInt8 then
        if byteAt p.tail = '*'.toUInt8 then go (.complete none) p.tail.tail stack
        else named p.tail stack
      else if xIsSelchar (byteAt p) then
        go .step (if byteAt p = '/'.toUInt8 then p.tail else p) stack
      else go (.missing least) p stack

/-- A step. -/
def step (p : Bytes) (stack : List Frame) : Except Verdict State :=
  if byteAt p = '*'.toUInt8 then go (.complete none) p.tail stack
  else if byteAt p = '.'.toUInt8 then
    go (.complete none) (if byteAt p.tail = '.'.toUInt8 then p.tail.tail else p.tail) stack
  else if byteAt p = '/'.toUInt8 then
    go (.complete none) (if byteAt p.tail = '*'.toUInt8 then p.tail.tail else p) stack
  else if byteAt p = '@'.toUInt8 then
    if byteAt p.tail = '*'.toUInt8 then go (.complete none) p.tail.tail stack
    else nameTest p.tail stack
  else
    match axisAt p with
    | some (_, p) => axisTest p stack
    | none => nameTest p stack

/-- The innermost bracket is left, with or without an operand. -/
def close (missing : Bool) (p : Bytes) : List Frame → Except Verdict State
  | [] => .error (.ends missing p)
  | .group least :: stack =>
      go (if missing then .missing least else .complete none)
        (if byteAt p = ')'.toUInt8 then p.tail else p) stack
  | .filter based :: stack =>
      if based then go (.complete none) (if byteAt p = ']'.toUInt8 then p.tail else p) stack
      else .error .nullDeref
  | .call :: stack => go .arguments (if byteAt p = ','.toUInt8 then p.tail else p) (.call :: stack)
  | .lost _ :: _ => .error .nullDeref

/-- An operator with many operands takes no more of them once one is missing. -/
def barred (least : Nat) : Option Nat :=
  if least = 1 ∨ least = 2 ∨ least = 8 then some (least - 1) else none

/-- A missing operand is left to the level that asked for it. -/
def settle (least : Nat) (p : Bytes) (stack : List Frame) : Except Verdict State :=
  if least = 0 then close true p stack else go (.complete (barred least)) p stack

def missing (least : Nat) (p : Bytes) (stack : List Frame) : Except Verdict State :=
  if byteAt p = '/'.toUInt8 then go .step p.tail stack
  else if byteAt p = '['.toUInt8 then go (.operand 0) p.tail (.filter false :: stack)
  else
    match operatorAt p with
    | some (level, q) =>
        if least ≤ level then go (.operand (level + 1)) q (.lost level :: stack)
        else settle least p stack
    | none => settle least p stack

/-- The level of an operator that waits for its right operand in vain. -/
def lostAt : List Frame → Option Nat
  | .lost level :: _ => some level
  | _ => none

def complete (barred : Option Nat) (p : Bytes) (stack : List Frame) : Except Verdict State :=
  if byteAt p = '/'.toUInt8 then go .step p.tail stack
  else if byteAt p = '['.toUInt8 then go (.operand 0) p.tail (.filter true :: stack)
  else
    match operatorAt p with
    | some (level, q) =>
        if barred = some level then close false p stack
        else if ∃ lost ∈ lostAt stack, level ≤ lost then .error .nullDeref
        else go (.operand (level + 1)) q stack
    | none => close false p stack

def arguments (p : Bytes) (stack : List Frame) : Except Verdict State :=
  if byteAt p = ')'.toUInt8 then go (.complete none) p.tail stack.tail
  else if stuck p then .error .stalls
  else go (.operand 0) p stack

/-- One step of the scan. -/
def pass : State → Except Verdict State
  | ⟨.operand least, p, stack⟩ => operand least p stack
  | ⟨.step, p, stack⟩ => step p stack
  | ⟨.missing least, p, stack⟩ => missing least p stack
  | ⟨.complete barred, p, stack⟩ => complete barred p stack
  | ⟨.arguments, p, stack⟩ => arguments p stack

/-- The scan of a whole expression begins in front of an operand. -/
def start (p : Bytes) : State := ⟨.operand 0, skipSpaces p, []⟩

/-- The scan of a text ends in this way. -/
def Scans (expr : CString) (verdict : Verdict) : Prop := Returns pass (start expr.bytes) verdict

end Scan

end TurboXSL
