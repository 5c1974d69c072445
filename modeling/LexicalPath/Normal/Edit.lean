import LexicalPath.Normal.Buffer
import LexicalPath.Separator

/-!
# Editing a path in place

Three scans over one buffer take out adjoining separators, then `.` segments, then `..` segments
together with the segment in front. Each scan closes the gaps as it goes, so that the text shrinks
under its position. In front of the index `start` nothing is changed.
-/

namespace LexicalPath

/-- Whether a separator at the end of a directory is kept. -/
inductive Ending where
  | kept
  | dropped
  deriving Repr, DecidableEq

structure Scan where
  buffer : Buffer
  /-- The number of units in use. -/
  size : Int
  pos : Int
  /-- Whether the text names a directory by its form. -/
  isDirectory : Bool

namespace Scan

/-- Repeats `step` until the position reaches the end of the text. -/
def run (step : Scan → Except EditError Scan) : Nat → Scan → Except EditError Scan
  | 0, s => if s.size ≤ s.pos then .ok s else .error .unfinished
  | n + 1, s => if s.size ≤ s.pos then .ok s else do run step n (← step s)

/-- Scans the text from `pos` on. Every step brings the end one unit nearer. -/
def scanFrom (step : Scan → Except EditError Scan) (pos : Int) (s : Scan) :
    Except EditError Scan :=
  run step (s.size - pos).toNat { s with pos }

def advance (s : Scan) : Scan := { s with pos := s.pos + 1 }

/-! ## Adjoining separators -/

def squeeze (sep : Separator) (s : Scan) : Except EditError Scan := do
  unless ← s.buffer.holds s.pos sep.unit do return s.advance
  unless ← s.buffer.holds (s.pos - 1) sep.unit do return s.advance
  let buffer ← s.buffer.move s.pos (s.pos - 1) (s.size - s.pos)
  return { s with buffer, size := s.size - 1 }

/-! ## Dot segments -/

/-- Whether a `.` segment ends at the position. -/
def atDot (sep : Separator) (start : Int) (s : Scan) : Except EditError Bool := do
  unless ← s.buffer.holds s.pos sep.unit do return false
  unless ← s.buffer.holds (s.pos - 1) CodeUnit.dot do return false
  if s.pos = start + 1 then return true
  s.buffer.holds (s.pos - 2) sep.unit

def dropDot (sep : Separator) (start : Int) (s : Scan) : Except EditError Scan := do
  unless ← s.atDot sep start do return s.advance
  let buffer ← s.buffer.move (s.pos + 1) (s.pos - 1) (s.size - s.pos)
  return { s with
    buffer, size := s.size - 2, isDirectory := s.isDirectory || s.pos = s.size - 1 }

/-! ## Double dot segments -/

/-- Whether a `..` segment ends at the position. -/
def atDotDot (sep : Separator) (start : Int) (s : Scan) : Except EditError Bool := do
  unless ← s.buffer.holds s.pos sep.unit do return false
  unless ← s.buffer.holds (s.pos - 1) CodeUnit.dot do return false
  unless ← s.buffer.holds (s.pos - 2) CodeUnit.dot do return false
  if s.pos = start + 2 then return true
  s.buffer.holds (s.pos - 3) sep.unit

/-- Takes out a `..` segment and the one in front of it, which starts behind the separator before
it or else at `start`. -/
def stepOut (sep : Separator) (start : Int) (s : Scan) : Except EditError Scan := do
  unless ← s.atDotDot sep start do return s.advance
  if s.pos = start + 2 then throw .aboveStart
  let isDirectory := s.isDirectory || s.pos = s.size - 1
  match ← s.buffer.lastIndex? sep.unit start (s.pos - 3 - start).toNat with
  | some j =>
    let buffer ← s.buffer.move (s.pos + 1) (j + 1) (s.size - s.pos)
    return { buffer, size := s.size - (s.pos - j), pos := j + 2, isDirectory }
  | none =>
    let buffer ← s.buffer.move (s.pos + 1) start (s.size - s.pos)
    return { buffer, size := s.size - (s.pos + 1 - start), pos := start + 2, isDirectory }

/-! ## The whole edit -/

/-- The path with one kind of separator and one of them at its end. The buffer has a unit to spare
for that one, and another one because the scans move one unit more than there are. -/
def ofPath (sep : Separator) (path : Text) : Except EditError Scan := do
  let buffer := Buffer.ofText (path.withSeparator sep) 2
  if ← buffer.holds (path.length - 1) sep.unit then
    return { buffer, size := path.length, pos := 0, isDirectory := true }
  let buffer ← buffer.write path.length sep.unit
  return { buffer, size := path.length + 1, pos := 0, isDirectory := false }

/-- The text in use. Its last unit is a separator, which stays as part of the prefix and, if it is
to be kept, at the end of a directory. -/
def text (ending : Ending) (start : Int) (s : Scan) : Text :=
  if s.size ≤ start ∨ (s.isDirectory ∧ ending = .kept) then s.buffer.toList.take s.size.toNat
  else s.buffer.toList.take (s.size - 1).toNat

/-- The edited path, where `start` is the length of its prefix. -/
def edit (sep : Separator) (ending : Ending) (start : Nat) (path : Text) :
    Except EditError Text := do
  let s ← ofPath sep path
  let s ← s.scanFrom (squeeze sep) (max start 1)
  let s ← s.scanFrom (dropDot sep start) (start + 1)
  let s ← s.scanFrom (stepOut sep start) (start + 2)
  return s.text ending start

end Scan

end LexicalPath
