import LexicalPath.Output
import LexicalPath.Printing.TextBuffer

/-!
# What a test does

A test is seen through its failed assertions and the exception that may end it.
-/

namespace LexicalPath.Testing

/-- The exact type of an exception, which any type with a name can be. -/
structure ExceptionType where
  name : Bytes
  deriving Repr, DecidableEq

namespace ExceptionType

def runtimeError : ExceptionType := ⟨ascii "runtime_error"⟩

def invalidArgument : ExceptionType := ⟨ascii "invalid_argument"⟩

def logicError : ExceptionType := ⟨ascii "logic_error"⟩

def unsanitizedPath : ExceptionType := ⟨ascii "unsanitized_path_error"⟩

end ExceptionType

/-- What a piece of a test does that the runner can see. -/
inductive Action where
  | fail (file : Bytes) (line : Int) (message : Bytes)
  | assume (file : Bytes) (line : Int) (expr : Bytes) (actual : Text) (why : Bytes)
      (expected : Text)
  /-- An exception ends the piece. -/
  | throw (type : ExceptionType) (message : Bytes)
  deriving Repr, DecidableEq

/-- A failure that counts. -/
structure Failure where
  suite : Bytes
  case : Bytes
  message : Bytes
  file : Bytes := []
  /-- The line in the file, or 0 if the failure has no place. -/
  line : Int := 0
  deriving Repr, DecidableEq

def assertionLimit : Nat := 8191

/-- The place and the message of a failed assertion. -/
def Action.assertion? : Action → Option (Bytes × Int × Bytes)
  | .fail file line message =>
    some (fileLabel file, line, (Field.bytes message).render.take assertionLimit)
  | .assume file line expr actual why expected =>
    let m : Message :=
      [.bytes expr, .words " => '", .bytes ((Item.text actual).short Item.shortLimit),
        .words "' ", .bytes why, .words " '", .bytes ((Item.text expected).short Item.shortLimit),
        .words "'"]
    some (fileLabel file, line, m.render.take assertionLimit)
  | .throw .. => none

/-! ## Running a piece of a test -/

/-- What a piece of a test has led to. -/
structure Outcome where
  failures : List Failure := []
  output : Output := {}
  thrown : Option (ExceptionType × Bytes) := none
  deriving Repr, DecidableEq

/-- The line about a failed assertion that a verbose run prints at once. -/
def assertionLine (file : Bytes) (line : Int) (message : Bytes) : Output :=
  .toErr (Message.render
    [.words "FAILED ASSERTION ", .right 12 file, .words ":", .number line, .words "    ",
      .bytes message, .words "\n"])

/-- Runs actions up to the first exception. -/
def perform (verbose : Bool) (suite case : Bytes) : List Action → Outcome
  | [] => {}
  | .throw type message :: _ => { thrown := some (type, message.untilNul) }
  | a :: rest =>
    let o := perform verbose suite case rest
    match a.assertion? with
    | none => o
    | some (file, line, message) =>
      { o with
        failures := ⟨suite, case, message, file, line⟩ :: o.failures
        output := (if verbose then assertionLine file line message else {}) ++ o.output }

end LexicalPath.Testing
