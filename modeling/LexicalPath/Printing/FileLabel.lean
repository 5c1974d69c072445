import LexicalPath.Message
import LexicalPath.Text.Search

/-!
# Files and texts in messages

A file is shown by the last part of its path. A text is shown in UTF-8, and an unpaired surrogate of
it is written as `\uXXXX`.
-/

namespace LexicalPath

/-! ## Files -/

def isSeparatorByte (b : UInt8) : Bool :=
  b == UInt8.ofNat '/'.toNat || b == UInt8.ofNat '\\'.toNat

/-- The part of a path behind its last separator. The path ends at its first zero byte. -/
def fileLabel (path : Bytes) : Bytes :=
  match Search.last? isSeparatorByte path.untilNul with
  | none => path.untilNul
  | some i => path.untilNul.drop (i + 1)

def fileLabel? (path : Option Bytes) : Bytes := path.elim (ascii "(null)") fileLabel

/-! ## Texts -/

namespace Text

/-- A unit by its number. -/
def escapeUnit (u : CodeUnit) : Bytes := ascii "\\u" ++ hex4 u.toNat

/-- Writes the text up to the next unpaired surrogate at once, then that surrogate, then the rest. -/
def escaped : Text → Bytes
  | [] => []
  | u :: t =>
    match malformedIdx? (u :: t) with
    | none => Utf8.ofText (u :: t)
    | some i =>
      Utf8.ofText ((u :: t).take i) ++ (((u :: t).drop i).take 1).flatMap escapeUnit ++
        escaped (t.drop i)
termination_by t => t.length
decreasing_by simp only [List.length_drop, List.length_cons]; omega

/-- The printable form of one code point that was read from a text. -/
def escapeCodePoint (c : CodePoint) : Bytes :=
  if c.isSurrogate then ascii "\\u" ++ hex4 c else Utf8.encodeScalar c

/-- The same form, code point by code point. -/
def escapedByCodePoint (t : Text) : Bytes := t.codePoints.flatMap escapeCodePoint

end Text

end LexicalPath
