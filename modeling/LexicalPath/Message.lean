import LexicalPath.Utf8

/-!
# Messages

A message is a row of fields. A field that shows a string ends at the first zero byte of it, and a
message is cut to the room it is printed into.
-/

namespace LexicalPath

/-! ## Numbers -/

def decimal (n : Nat) : Bytes := (Nat.toDigits 10 n).map fun c => UInt8.ofNat c.toNat

/-- The decimal form of a number, with a minus sign if it is negative. -/
def signedDecimal (n : Int) : Bytes :=
  if n < 0 then UInt8.ofNat '-'.toNat :: decimal n.natAbs else decimal n.natAbs

/-- The hexadecimal form of a number, upper case and with at least four digits. -/
def hex4 (n : Nat) : Bytes :=
  let digits := ((Nat.toDigits 16 n).map fun c => UInt8.ofNat c.toNat).map upperByte
  List.replicate (4 - digits.length) (UInt8.ofNat '0'.toNat) ++ digits

/-! ## Fields -/

inductive Field where
  | words (s : String)
  /-- The string up to its first zero byte. -/
  | bytes (s : Bytes)
  /-- The same, padded on the left up to a width. -/
  | right (width : Nat) (s : Bytes)
  /-- The same, padded on the right up to a width. -/
  | left (width : Nat) (s : Bytes)
  /-- The UTF-8 form of the text up to its first zero byte. -/
  | text (t : Text)
  | number (n : Int)
  | hex (n : Nat)

abbrev Message := List Field

namespace Field

def render : Field → Bytes
  | words s => ascii s
  | bytes s => s.untilNul
  | right width s => s.untilNul.padLeft width
  | left width s => s.untilNul.padRight width
  | text t => (Utf8.ofText t).untilNul
  | number n => signedDecimal n
  | hex n => hex4 n

end Field

namespace Message

/-- A code point as a quoted character, or by its number if it is not printable ASCII. -/
def codePoint (c : CodePoint) : Message :=
  if 0x20 ≤ c ∧ c < 0x7F then [.words "'", .bytes [UInt8.ofNat c], .words "'"]
  else [.words "U+", .hex c]

def render (m : Message) : Bytes := m.flatMap Field.render

/-- The number of bytes that a line of the log or the text of an error can hold. -/
def lineLimit : Nat := 4094

def errorText (m : Message) : Bytes := m.render.take lineLimit

end Message

end LexicalPath
