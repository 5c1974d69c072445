import LexicalPath.Normal.Basic

/-!
# Paths as rows of segments

What a path means: the segments behind its prefix are steps down, and `..` is a step back up. A
normal path is the prefix with the segments that remain.
-/

namespace LexicalPath

namespace Segments

def isEmptyOrDot (s : Text) : Bool := s.isEmpty || s == [CodeUnit.dot]

def isDotDot (s : Text) : Bool := s == [CodeUnit.dot, CodeUnit.dot]

/-- A last segment of this form names a directory. -/
def isDirectoryMark (s : Text) : Bool := isEmptyOrDot s || isDotDot s

/-- Takes one step from a place, which is given by the segments down to it, the last one first. -/
def step (place : List Text) (s : Text) : Option (List Text) :=
  if isEmptyOrDot s then some place
  else if isDotDot s then
    match place with
    | [] => none
    | _ :: above => some above
  else some (s :: place)

/-- The segments that remain when all steps are taken from `place` on. -/
def resolve (place : List Text) : List Text → Option (List Text)
  | [] => some place.reverse
  | s :: ss => (step place s).bind (resolve · ss)

/-- The prefix of a path in the chosen convention, completed by a separator if it is virtual. -/
def anchor (sep : Separator) (start : Nat) (path : Text) : Text :=
  Text.withSeparator (path.take start) sep ++ if path.length < start then [sep.unit] else []

def join (sep : Separator) (segments : List Text) : Text :=
  [sep.unit].intercalate segments

/-- The normal form of a path without NUL. -/
def normalize? (sep : Separator) (ending : Ending) (path : Text) : Option Text :=
  (Prefix.length? path).bind fun start =>
    let raw := (path.drop start).splitOnP Separator.isUnit
    (resolve [] raw).map fun segments =>
      let mark := ending = .kept ∧ segments ≠ [] ∧ raw.getLast?.any isDirectoryMark
      anchor sep start path ++ join sep segments ++ if mark then [sep.unit] else []

end Segments

end LexicalPath
