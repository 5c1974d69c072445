import LexicalPath.Host.Basic
import LexicalPath.Separator
import LexicalPath.Utf8

/-!
# Path prefixes

The prefix is the part of a path that says where the rest of it starts: a root, a drive, a host or
a home directory. Relative paths have an empty prefix.
-/

namespace LexicalPath

/-- The place that a path starts from. -/
inductive Prefix.Kind where
  | relative
  | rootAbsolute
  /-- The working directory of a drive, as in `C:a`. -/
  | driveRelative
  /-- The root of a drive, as in `C:/a`. -/
  | driveAbsolute
  /-- A share of a host, as in `//host/a`. -/
  | unc
  /-- The home directory of the user, as in `~/a`. -/
  | homeCurrentUser
  /-- The home directory of someone else, as in `~name/a`. -/
  | homeNamedUser
  deriving Repr, DecidableEq

/-- The kind of a prefix and the number of units that it takes. -/
structure Prefix where
  kind : Prefix.Kind
  length : Nat
  deriving Repr, DecidableEq

namespace Prefix

/-- A prefix is virtual if it is longer than its path, which then lacks the final separator. -/
def isVirtual (p : Prefix) (pathLength : Nat) : Bool := pathLength < p.length

/-! ## The length -/

/-- The length of the prefix of a path that starts with a tilde and has more units. It ends at the
first separator, and one is counted where there is none. -/
def homeLength (path : Text) : Nat :=
  match path.separatorIdx? 1 with
  | none => path.length + 1
  | some i => i + 1

/-- The length of the prefix of a path that starts with two separators. They have to be followed by
a valid host and by a separator that ends it. -/
def uncLength? (path : Text) : Option Nat :=
  match path.separatorIdx? 2 with
  | none => none
  | some i => if i = 2 || !Host.isValid (path.slice 2 (i - 2)) then none else some (i + 1)

/-- The number of units in the prefix of a path, or nothing if the path is invalid. A colon is
refused as the first unit, and as the second one except behind a letter, a slash or a tilde. -/
def length? (path : Text) : Option Nat :=
  match path with
  | [] => some 0
  | [u] =>
    if u = CodeUnit.colon then none
    else if u = CodeUnit.tilde then some 2
    else if Separator.isUnit u then some 1 else some 0
  | u :: v :: rest =>
    if u = CodeUnit.colon then none
    else if u = CodeUnit.tilde then some (homeLength path)
    else if v = CodeUnit.colon then
      if u.isLetter then if rest.head?.any Separator.isUnit then some 3 else some 2
      else if u = CodeUnit.slash then some 1 else none
    else if Separator.isUnit u && Separator.isUnit v then uncLength? path
    else if Separator.isUnit u then some 1 else some 0

/-- The same for a path in UTF-8. Bytes that are no valid UTF-8 have no prefix. -/
def lengthOfBytes? (path : Bytes) : Option Nat := (Utf8.toText? path).bind length?

/-! ## The kind -/

/-- The kind of a prefix of this length, by the first two units of its path. -/
def kindOf (path : Text) (length : Nat) : Kind :=
  if length = 0 then .relative
  else if path.head? = some CodeUnit.tilde then
    if path.length = 1 || path[1]?.any Separator.isUnit then .homeCurrentUser else .homeNamedUser
  else if path[1]? = some CodeUnit.colon && path.head?.any CodeUnit.isLetter then
    if length = 2 then .driveRelative else .driveAbsolute
  else if 1 < length then .unc else .rootAbsolute

/-- The prefix of a path, or nothing if the path is invalid. -/
def parse? (path : Text) : Option Prefix := (length? path).map fun n => ⟨kindOf path n, n⟩

end Prefix

end LexicalPath
