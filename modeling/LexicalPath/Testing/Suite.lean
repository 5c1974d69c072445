import LexicalPath.Testing.Action

/-! # Suites of test cases -/

namespace LexicalPath.Testing

structure Case where
  name : Bytes
  body : List Action
  /-- The exception that the case has to end with. -/
  expects : Option ExceptionType := none
  deriving Repr, DecidableEq

structure Suite where
  name : Bytes
  /-- What is done when the suite is built, before it runs. -/
  construction : List Action := []
  init : List Action := []
  cases : List Case := []
  cleanup : List Action := []
  deriving Repr, DecidableEq

/-! ## Running a suite -/

structure SuiteReport where
  failures : List Failure := []
  output : Output := {}
  numRun : Nat := 0
  numFailed : Nat := 0
  deriving Repr, DecidableEq

def SuiteReport.succeeded (r : SuiteReport) : Bool := r.numFailed == 0 && 0 < r.numRun

/-- An exception that the runner does not catch, and what has been printed before it. -/
structure Escape where
  type : ExceptionType
  message : Bytes
  output : Output
  deriving Repr, DecidableEq

def Escape.behind (output : Output) (x : Escape) : Escape := { x with output := output ++ x.output }

namespace Suite

/-- The failure of a case for its exception, or for the lack of one. -/
def exceptionFailure? (s : Suite) (c : Case) (o : Outcome) : Option Failure :=
  match o.thrown with
  | none =>
    if c.expects.isSome then some ⟨s.name, c.name, ascii "expected EXCEPTION was NOT THROWN", [], 0⟩
    else none
  | some (type, message) =>
    if c.expects = some type then none
    else some ⟨s.name, c.name, ascii "EXCEPTION: " ++ message, [], 0⟩

def caseFailures (s : Suite) (c : Case) (o : Outcome) : List Failure :=
  o.failures ++ (s.exceptionFailure? c o).toList

def announceCase (verbose : Bool) (s : Suite) (c : Case) : Output :=
  if verbose then
    .toOut (Message.render [.bytes s.name, .words "::", .bytes c.name, .words "\n"])
  else {}

/-- Runs one case. It fails if it leaves any failure. -/
def runCase (verbose : Bool) (s : Suite) (c : Case) : SuiteReport :=
  let o := perform verbose s.name c.name c.body
  let failures := s.caseFailures c o
  { failures
    output := announceCase verbose s c ++ o.output
    numRun := 1
    numFailed := if failures.isEmpty then 0 else 1 }

/-- An empty filter selects all cases. -/
def isSelected (filter : Bytes) (c : Case) : Bool :=
  filter.isEmpty || (Search.block? filter c.name).isSome

def selectedCases (filter : Bytes) (s : Suite) : List Case := s.cases.filter (isSelected filter)

/-- The reports of cases that ran one after another, as one. -/
def joinReports : List SuiteReport → SuiteReport
  | [] => {}
  | r :: rs =>
    let rest := joinReports rs
    { failures := r.failures ++ rest.failures
      output := r.output ++ rest.output
      numRun := r.numRun + rest.numRun
      numFailed := r.numFailed + rest.numFailed }

/-- Runs a part of the suite around its cases. An exception is one more failure. -/
def runAround (verbose : Bool) (s : Suite) (part what : Bytes) (actions : List Action) :
    Outcome :=
  let o := perform verbose s.name part actions
  match o.thrown with
  | none => o
  | some (_, message) => { o with failures := o.failures ++ [⟨s.name, part, what ++ message, [], 0⟩] }

def noCases (filter : Bytes) (s : Suite) : Output :=
  .toOut (Message.render
    [.words "No test cases matching '", .bytes filter, .words "' in ", .bytes s.name, .words "\n"])

/-- Runs the selected cases between the init and the cleanup of the suite. If init ends with an
exception, no case runs and the suite counts as one failed case. -/
def runCases (verbose : Bool) (filter : Bytes) (s : Suite) : SuiteReport :=
  let init := s.runAround verbose (ascii "init") (ascii "EXCEPTION in TestInit(): ") s.init
  let cases := joinReports ((s.selectedCases filter).map (s.runCase verbose))
  let cleanup :=
    s.runAround verbose (ascii "cleanup") (ascii "EXCEPTION in TestCleanup(): ") s.cleanup
  if init.thrown.isSome then
    { failures := init.failures ++ cleanup.failures
      output := init.output ++ cleanup.output
      numRun := 0
      numFailed := 1 }
  else
    let remark := if cases.numRun = 0 then s.noCases filter else {}
    { cases with
      failures := init.failures ++ cases.failures ++ cleanup.failures
      output := init.output ++ cases.output ++ remark ++ cleanup.output }

def verdictLine (s : Suite) (r : SuiteReport) : Output :=
  let line (passed : Nat) (verdict : String) : Bytes := Message.render
    [.words "TEST ", .left 32 s.name, .words "  ", .number passed, .words "/", .number r.numRun,
      .words verdict]
  if r.succeeded then .toOut (line r.numRun "  [OK]\n")
  else .toErr (line r.numFailed "  [FAILED]\n")

def announce (verbose : Bool) (s : Suite) : Output :=
  if verbose then
    .toOut (Message.render [.words "--------  running '", .bytes s.name, .words "'  --------\n"])
  else {}

/-- Builds and runs a suite. What fails while it is built is not recorded, and an exception there
leaves the runner. -/
def run (verbose : Bool) (filter : Bytes) (s : Suite) : Except Escape SuiteReport :=
  let built := perform verbose s.name [] s.construction
  match built.thrown with
  | some (type, message) => .error ⟨type, message, built.output⟩
  | none =>
    let r := s.runCases verbose filter
    .ok { r with output := built.output ++ s.announce verbose ++ r.output ++ s.verdictLine r }

end Suite

end LexicalPath.Testing
