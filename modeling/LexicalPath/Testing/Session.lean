import LexicalPath.Testing.Selection

/-! # Test sessions -/

namespace LexicalPath.Testing

/-- What a run of the enabled suites has led to. -/
structure Report where
  suitesRun : Nat := 0
  suitesFailed : Nat := 0
  failures : List Failure := []
  deriving Repr, DecidableEq

namespace Report

def addSuite (r : Report) (s : SuiteReport) : Report where
  suitesRun := r.suitesRun + 1
  suitesFailed := r.suitesFailed + if s.succeeded then 0 else 1
  failures := r.failures ++ s.failures

def failureLine (f : Failure) : Bytes :=
  let place : Message :=
    if f.line = 0 then [] else [.bytes f.file, .words ":", .number f.line, .words "  "]
  Message.render
    ([.words "    "] ++ place ++
      [.bytes f.suite, .words "::", .bytes f.case, .words ":  ", .bytes f.message, .words "\n"])

/-- The result of the run: 0 if there is no failure. -/
def code (r : Report) : Nat :=
  if !r.failures.isEmpty then r.failures.length
  else if 0 < r.suitesFailed then r.suitesFailed
  else if r.suitesRun = 0 then 1
  else 0

/-- What is said in the end, where `available` is the number of suites in the register. -/
def summary (r : Report) (available : Nat) : Output :=
  if !r.failures.isEmpty || 0 < r.suitesFailed then
    .toErr (Message.render
      [.words "\nWARNING: ", .number r.suitesFailed, .words "/", .number r.suitesRun,
        .words " tests failed with ", .number r.failures.length, .words " assertions!\n"] ++
      r.failures.flatMap failureLine)
  else if r.suitesRun = 0 then
    .toOut (Message.render
      [.words "\nNOTE: No tests were run! (out of ", .number available, .words " available)\n"])
  else
    .toOut (Message.render
      [.words "\nSUCCESS: All ", .number r.suitesRun, .words " tests passed!\n"])

end Report

/-- The state between two runs. -/
structure Session where
  entries : List Entry := []
  verbose : Bool := false
  deriving Repr, DecidableEq

namespace Session

inductive Command where
  | register (s : Suite)
  | run (args : List Bytes)
  | cleanup
  deriving Repr, DecidableEq

inductive Answer where
  | registered
  | finished (code : Nat) (output : Output)
  /-- The whole program has come to its end. -/
  | exited (output : Output)
  | cleaned
  deriving Repr, DecidableEq

def usage : Output :=
  .toOut (ascii
    "Usage: RePathTests [-v] [testname] [-testname] [test:testname] [testname.testcase]\n")

def isHelp (arg : Bytes) : Bool := arg == ascii "-h" || arg == ascii "--help"

def isVerbose (arg : Bytes) : Bool := arg == ascii "-v"

def selectors (args : List Bytes) : List Bytes :=
  args.filter fun a => !isVerbose a && !a.isEmpty

/-- Runs one more suite and adds it to the report. -/
def runNext (verbose : Bool) : Report × Output → Entry → Except Escape (Report × Output)
  | (report, output), e =>
    match e.suite.run verbose e.filter with
    | .error x => .error (x.behind output)
    | .ok r => .ok (report.addSuite r, output ++ r.output)

/-- Runs the enabled suites in the order of the register. -/
def runEntries (verbose : Bool) (entries : List Entry) : Except Escape (Report × Output) :=
  (entries.filter Entry.enabled).foldlM (runNext verbose) ({}, {})

/-- Selects and runs suites. The selection stays in force for later runs. -/
def runTests (s : Session) (args : List Bytes) : Session × Except Escape Answer :=
  let args := args.map Bytes.untilNul
  if args.any isHelp then (s, .ok (.exited usage))
  else
    let verbose := s.verbose || args.any isVerbose
    let (entries, complaints) :=
      if (selectors args).isEmpty then (s.entries, {}) else select (selectors args) s.entries
    ({ entries, verbose },
      match runEntries verbose entries with
      | .error x => .error (x.behind complaints)
      | .ok (report, output) =>
        .ok (.finished report.code (complaints ++ output ++ report.summary entries.length)))

def step (s : Session) : Command → Session × Except Escape Answer
  | .register suite => ({ s with entries := s.entries ++ [{ suite }] }, .ok .registered)
  | .run args => s.runTests args
  | .cleanup => ({ s with entries := [] }, .ok .cleaned)

/-- The answers to a row of commands. No command is carried out after the program has ended. An
exception that nothing catches ends it too, without an answer. -/
def answers (s : Session) : List Command → List Answer
  | [] => []
  | c :: cs =>
    match s.step c with
    | (_, .error _) => []
    | (_, .ok (.exited output)) => [.exited output]
    | (s, .ok a) => a :: s.answers cs

end Session

end LexicalPath.Testing
