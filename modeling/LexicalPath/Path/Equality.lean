import LexicalPath.Normal.Basic

/-! # Equality and containment of paths -/

namespace LexicalPath

/-- Whether the case of ASCII letters matters where paths are compared. -/
inductive CaseRule where
  | sensitive
  | insensitive
  | system
  deriving Repr, DecidableEq

namespace CaseRule

/-- On the host system case matters. -/
def isSensitive : CaseRule → Bool
  | sensitive => true
  | insensitive => false
  | system => true

def equal (rule : CaseRule) (a b : Text) : Bool := if rule.isSensitive then a == b else a.equalFold b

def startsWith (rule : CaseRule) (t start : Text) : Bool :=
  if rule.isSensitive then start.isPrefixOf t else t.startsWithFold start

end CaseRule

namespace Path

def equal (rule : CaseRule) (a b : Text) : Bool := rule.equal a b

/-- Equality of the normal forms of two paths. A path without one equals no other. -/
def equalNormalized (rule : CaseRule) (a b : Text) : Except PathError Bool := do
  match ← normalize .system .kept a with
  | none => return false
  | some a =>
    match ← normalize .system .kept b with
    | none => return false
    | some b => return rule.equal a b

/-- The separator that closes a directory name, slash if it starts with a slash. -/
def closingSeparator (parent : Text) : Separator :=
  if parent.head? = some CodeUnit.slash then .slash else .backslash

def closed (parent : Text) : Text :=
  if parent.getLast? = some (closingSeparator parent).unit then parent
  else parent ++ [(closingSeparator parent).unit]

/-- Whether a path in normal form lies in a directory in normal form and is not that directory. -/
def contains (parent child : Text) : Bool :=
  !parent.isEmpty && !child.isEmpty && !CaseRule.system.equal parent child &&
    CaseRule.system.startsWith child (closed parent)

end Path

end LexicalPath
