import LexicalPath.Text.Basic

/-!
# Code points

Reading a text by code points never fails: an unpaired surrogate is read as its own value. Writing
what was read gives the text back.
-/

namespace LexicalPath

/-- A Unicode code point. Values above U+10FFFF can be written too, see `CodePoint.toUnits`. -/
abbrev CodePoint := Nat

namespace CodePoint

def isSurrogate (c : CodePoint) : Bool := 0xD800 ≤ c && c ≤ 0xDFFF

/-- A scalar value is a code point up to U+10FFFF that is not a surrogate. -/
def isScalar (c : CodePoint) : Bool := c ≤ 0x10FFFF && !isSurrogate c

/-- One unit below U+10000 and a surrogate pair from there on. The halves of a pair are cut to 16
bits, so that above U+10FFFF they are no surrogates any more. -/
def toUnits (c : CodePoint) : Text :=
  if c < 0x10000 then [UInt16.ofNat c]
  else [UInt16.ofNat (0xD800 + (c - 0x10000) / 0x400), UInt16.ofNat (0xDC00 + (c - 0x10000) % 0x400)]

def ofPair (high low : CodeUnit) : CodePoint :=
  0x10000 + (high.toNat - 0xD800) * 0x400 + (low.toNat - 0xDC00)

def unitCount (c : CodePoint) : Nat := if c < 0x10000 then 1 else 2

theorem length_toUnits (c : CodePoint) : (toUnits c).length = unitCount c := by
  unfold toUnits unitCount
  split <;> rfl

end CodePoint

namespace Text

/-- The code points from the start of the text to its end. -/
def codePoints : Text → List CodePoint
  | [] => []
  | [u] => [u.toNat]
  | u :: v :: t =>
    if u.isHighSurrogate && v.isLowSurrogate then CodePoint.ofPair u v :: codePoints t
    else u.toNat :: codePoints (v :: t)

def ofCodePoints (cs : List CodePoint) : Text := cs.flatMap CodePoint.toUnits

def ofString (s : String) : Text := ofCodePoints (s.toList.map Char.toNat)

/-- Each code point with the index of the unit after it, where the first one starts at `start`. -/
def endsFrom (start : Nat) : List CodePoint → List (CodePoint × Nat)
  | [] => []
  | c :: cs => (c, start + c.unitCount) :: endsFrom (start + c.unitCount) cs

def codePointsWithEnds (t : Text) : List (CodePoint × Nat) := endsFrom 0 t.codePoints

/-! ## Well-formed texts -/

/-- The index of the first unpaired surrogate. -/
def malformedIdx? : Text → Option Nat
  | [] => none
  | [u] => if u.isSurrogate then some 0 else none
  | u :: v :: t =>
    if u.isHighSurrogate then
      if v.isLowSurrogate then (malformedIdx? t).map (· + 2) else some 0
    else if u.isLowSurrogate then some 0
    else (malformedIdx? (v :: t)).map (· + 1)

def isWellFormed (t : Text) : Bool := t.malformedIdx?.isNone

end Text

end LexicalPath
