import LexicalPath.Bytes
import LexicalPath.Text.CodePoint

/-!
# UTF-8

The strict coding: no sequence is overlong, cut short, a surrogate or above U+10FFFF.
-/

namespace LexicalPath.Utf8

/-! ## Code points -/

def encodeScalar (c : CodePoint) : Bytes :=
  if c < 0x80 then [UInt8.ofNat c]
  else if c < 0x800 then [UInt8.ofNat (0xC0 + c / 0x40), UInt8.ofNat (0x80 + c % 0x40)]
  else if c < 0x10000 then
    [UInt8.ofNat (0xE0 + c / 0x1000), UInt8.ofNat (0x80 + c / 0x40 % 0x40),
      UInt8.ofNat (0x80 + c % 0x40)]
  else
    [UInt8.ofNat (0xF0 + c / 0x40000), UInt8.ofNat (0x80 + c / 0x1000 % 0x40),
      UInt8.ofNat (0x80 + c / 0x40 % 0x40), UInt8.ofNat (0x80 + c % 0x40)]

def isContinuation (b : UInt8) : Bool := 0x80 ≤ b.toNat && b.toNat ≤ 0xBF

/-- The value of a two-byte sequence, unless it is malformed or overlong. -/
def pair? (a b : UInt8) : Option CodePoint :=
  let c : CodePoint := (a.toNat - 0xC0) * 0x40 + (b.toNat - 0x80)
  if isContinuation b && 0x80 ≤ c then some c else none

/-- The value of a three-byte sequence, unless it is malformed, overlong or a surrogate. -/
def triple? (a b c : UInt8) : Option CodePoint :=
  let v : CodePoint := (a.toNat - 0xE0) * 0x1000 + (b.toNat - 0x80) * 0x40 + (c.toNat - 0x80)
  if isContinuation b && isContinuation c && 0x800 ≤ v && !v.isSurrogate then some v else none

/-- The value of a four-byte sequence, unless it is malformed, overlong or above U+10FFFF. -/
def quadruple? (a b c d : UInt8) : Option CodePoint :=
  let v : CodePoint := (a.toNat - 0xF0) * 0x40000 + (b.toNat - 0x80) * 0x1000 + (c.toNat - 0x80) * 0x40 +
    (d.toNat - 0x80)
  if isContinuation b && isContinuation c && isContinuation d && 0x10000 ≤ v && v ≤ 0x10FFFF then
    some v
  else none

/-- The scalar values of a byte string, or nothing if some part of it is not valid UTF-8. -/
def decode? : Bytes → Option (List CodePoint)
  | [] => some []
  | a :: s₁ =>
    if a.toNat < 0x80 then (decode? s₁).map (a.toNat :: ·)
    else match s₁ with
      | [] => none
      | b :: s₂ =>
        if a.toNat < 0xC0 then none
        else if a.toNat < 0xE0 then
          (pair? a b).bind fun v => (decode? s₂).map (v :: ·)
        else match s₂ with
          | [] => none
          | c :: s₃ =>
            if a.toNat < 0xF0 then (triple? a b c).bind fun v => (decode? s₃).map (v :: ·)
            else match s₃ with
              | [] => none
              | d :: s₄ =>
                if a.toNat < 0xF8 then (quadruple? a b c d).bind fun v => (decode? s₄).map (v :: ·)
                else none

/-! ## Texts -/

/-- The UTF-8 form of a text, unless the text holds an unpaired surrogate. -/
def ofText? (t : Text) : Option Bytes :=
  if t.isWellFormed then some (t.codePoints.flatMap encodeScalar) else none

/-- The text of a byte string, unless the bytes are not valid UTF-8. -/
def toText? (s : Bytes) : Option Text := (decode? s).map Text.ofCodePoints

/-- The UTF-8 form of a text that is converted into `room` bytes, unless it takes more. -/
def ofTextWithin? (room : Nat) (t : Text) : Option Bytes := (ofText? t).filter (·.length ≤ room)

/-- The UTF-8 form of a text, and nothing at all for a text with an unpaired surrogate. -/
def ofText (t : Text) : Bytes := (ofText? t).getD []

/-- The text of a byte string, and nothing at all for bytes that are not valid. -/
def toText (s : Bytes) : Text := (toText? s).getD []

/-- The first `count` bytes, or the bytes in front of the first zero byte if `count` is negative. -/
def firstBytes (s : Bytes) (count : Int) : Bytes :=
  if count < 0 then s.untilNul else s.take count.toNat

end LexicalPath.Utf8
