import LexicalPath.Text.Basic

/-! # Separators -/

namespace LexicalPath

/-- One of the two units that separate the segments of a path. -/
inductive Separator where
  | slash
  | backslash
  deriving Repr, DecidableEq

namespace Separator

def unit : Separator → CodeUnit
  | slash => CodeUnit.slash
  | backslash => CodeUnit.backslash

def other : Separator → Separator
  | slash => backslash
  | backslash => slash

/-- The separator of the host system. -/
def system : Separator := slash

/-- Both units separate, whatever the convention of the rest of the path. -/
def isUnit (u : CodeUnit) : Bool := u == CodeUnit.slash || u == CodeUnit.backslash

theorem isUnit_iff (u : CodeUnit) : isUnit u = true ↔ u = slash.unit ∨ u = backslash.unit := by
  simp [isUnit, unit]

end Separator

namespace Text

def replaceUnit (t : Text) (old new : CodeUnit) : Text := t.map fun u => if u = old then new else u

/-- The text with both separators written as `sep`. -/
def withSeparator (t : Text) (sep : Separator) : Text := t.replaceUnit sep.other.unit sep.unit

def separatorIdx? (t : Text) (start : Nat) : Option Nat := Search.next? Separator.isUnit t start

def lastSeparatorIdx? (t : Text) : Option Nat := Search.last? Separator.isUnit t

def endsWithSeparator (t : Text) : Bool := t.getLast?.any Separator.isUnit

end Text

end LexicalPath
