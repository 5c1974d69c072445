/-! # Byte strings -/

namespace LexicalPath

/-- A sequence of bytes, in most places UTF-8 but nowhere trusted to be. -/
abbrev Bytes := List UInt8

/-- The bytes of a text of ASCII characters. -/
def ascii (s : String) : Bytes := s.toList.map fun c => UInt8.ofNat c.toNat

def upperByte (b : UInt8) : UInt8 := if 97 ≤ b.toNat ∧ b.toNat ≤ 122 then b - 32 else b

namespace Bytes

def fold (s : Bytes) : Bytes := s.map upperByte

def equalFold (s t : Bytes) : Bool := s.fold == t.fold

def startsWithFold (s start : Bytes) : Bool := start.fold.isPrefixOf s.fold

def untilNul (s : Bytes) : Bytes := s.takeWhile (· != 0)

/-- Pads with blanks on the left up to `width` bytes. -/
def padLeft (s : Bytes) (width : Nat) : Bytes := List.replicate (width - s.length) 32 ++ s

def padRight (s : Bytes) (width : Nat) : Bytes := s ++ List.replicate (width - s.length) 32

/-- The first `limit` bytes with `mark` behind them, or all of `s` if it is no longer than that. -/
def abbreviate (s : Bytes) (limit : Nat) (mark : Bytes) : Bytes :=
  if s.length > limit then s.take limit ++ mark else s

end Bytes

end LexicalPath
