import LexicalPath.Log.Notice
import LexicalPath.Output

/-!
# The log

Records go to the handlers in the order in which these were added, or to the console if there is
no handler. A callback is set and not added: a new one takes the place of the old one.
-/

namespace LexicalPath

namespace Log

inductive Handler where
  /-- The callback that was set last. -/
  | callback (id : Nat)
  /-- A function that was added together with a context to call it in. -/
  | listener (context function : Nat)
  deriving Repr, DecidableEq

def Handler.isCallback : Handler → Bool
  | callback _ => true
  | listener .. => false

def capacity : Nat := 16

end Log

structure Log where
  handlers : List Log.Handler := []
  /-- Records of a lower rank are dropped. -/
  filter : Nat := 0
  deriving Repr, DecidableEq

namespace Log

structure Delivery where
  calls : List (Handler × Severity × Bytes) := []
  console : Output := {}
  deriving Repr, DecidableEq

/-! ## Handlers -/

/-- Adds a handler at the end, unless it is there already or the log is full. -/
def add (log : Log) (h : Handler) : Log :=
  if log.handlers.length < capacity ∧ h ∉ log.handlers then
    { log with handlers := log.handlers ++ [h] }
  else log

def remove (log : Log) (h : Handler) : Log := { log with handlers := log.handlers.erase h }

/-- Removes the callback, if there is one, and adds the new one. -/
def setCallback (log : Log) (id : Option Nat) : Log :=
  let log := { log with handlers := log.handlers.eraseP Handler.isCallback }
  match id with
  | none => log
  | some id => log.add (.callback id)

/-! ## Records -/

/-- A record on the console, in bright yellow for a warning and in bright red for an error. -/
def consoleLine (severity : Severity) (text : Bytes) : Output :=
  match severity with
  | .info => .toOut (text ++ ascii "\n")
  | .warn => .toOut (ascii "\x1b[93m" ++ text ++ ascii "\x1b[0m\n")
  | .error => .toErr (ascii "\x1b[91m" ++ text ++ ascii "\x1b[0m\n")

def deliver (log : Log) (severity : Severity) (text : Bytes) : Delivery :=
  if severity.rank < log.filter then {}
  else if log.handlers.isEmpty then { console := consoleLine severity text }
  else { calls := log.handlers.map fun h => (h, severity, text) }

/-! ## Commands -/

inductive Command where
  | setFilter (rank : Nat)
  | setCallback (id : Option Nat)
  | add (h : Handler)
  | remove (h : Handler)
  | record (severity : Severity) (message : Message)

def step (log : Log) : Command → Log × Delivery
  | .setFilter rank => ({ log with filter := rank }, {})
  | .setCallback id => (log.setCallback id, {})
  | .add h => (log.add h, {})
  | .remove h => (log.remove h, {})
  | .record severity message =>
    (log, log.deliver severity (message.render.take Message.lineLimit))

def run (log : Log) (commands : List Command) : Log :=
  commands.foldl (fun log c => (log.step c).1) log

end Log

end LexicalPath
