import LexicalPath.Testing.Suite

/-!
# Selecting suites

An argument names suites to be run, and with a hyphen in front suites to be left out. What follows
its first dot selects cases of those suites.
-/

namespace LexicalPath.Testing

structure Entry where
  suite : Suite
  /-- Only cases with this in their name are run. -/
  filter : Bytes := []
  enabled : Bool := true
  deriving Repr, DecidableEq

structure Selector where
  pattern : Bytes
  filter : Bytes
  /-- Whether the pattern is the whole name of a suite, and not just a part of it. -/
  exact : Bool
  disables : Bool
  deriving Repr, DecidableEq

def hyphen : UInt8 := UInt8.ofNat '-'.toNat

def dotByte : UInt8 := UInt8.ofNat '.'.toNat

/-- The mark in front of the whole name of a suite. -/
def exactMark : Bytes := ascii "test:"

/-- Whether an argument leaves suites out. -/
def isExclusion (arg : Bytes) : Bool := arg.head? == some hyphen

namespace Selector

def ofArgument (arg : Bytes) : Selector :=
  let suite := arg.takeWhile (· != dotByte)
  let filter := (arg.dropWhile (· != dotByte)).drop 1
  let disables := isExclusion suite
  let name : Bytes := if disables then suite.drop 1 else suite
  let exact := name.startsWithFold exactMark
  let pattern := if exact then name.drop exactMark.length else name
  ⟨pattern, filter, exact, disables⟩

/-- Whether a suite goes by this name, in any case of ASCII letters. -/
def isMatch (s : Selector) (name : Bytes) : Bool :=
  if s.exact then name.equalFold s.pattern
  else (Search.block? s.pattern.fold name.fold).isSome

def applyTo (s : Selector) (e : Entry) : Entry :=
  if s.isMatch e.suite.name then { e with enabled := !s.disables, filter := s.filter } else e

/-- What is said about an argument that matches nothing. -/
def complaint (s : Selector) (entries : List Entry) : Output :=
  if entries.any fun e => s.isMatch e.suite.name then {}
  else .toErr (Message.render [.words "  No matching test for '", .bytes s.pattern, .words "'\n"])

end Selector

/-- Leaves nothing enabled if some argument names suites to be run. -/
def clearFor (args : List Bytes) (entries : List Entry) : List Entry :=
  if args.any (!isExclusion ·) then entries.map fun e => { e with enabled := false } else entries

/-- Applies the arguments one after another, so that the last one that matches a suite decides. -/
def select (args : List Bytes) (entries : List Entry) : List Entry × Output :=
  args.foldl
    (fun (entries, output) arg =>
      let s := Selector.ofArgument arg
      (entries.map s.applyTo, output ++ s.complaint entries))
    (clearFor args entries, {})

end LexicalPath.Testing
