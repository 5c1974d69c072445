import LexicalPath.Message

/-!
# Decimal forms of binary64 numbers

A number is rounded to a fixed count of significant digits, halves to even, on its exact value.
Zeros at the end of the fraction are left out.
-/

namespace LexicalPath

/-! ## Powers -/

def twoTo (n : Nat) : Nat := Nat.pow 2 n

def tenTo (n : Nat) : Nat := Nat.pow 10 n

/-! ## Exact values -/

/-- The value of a binary64 number, where a finite one is a quotient. -/
inductive Binary64 where
  | nan
  | infinite (negative : Bool)
  | finite (negative : Bool) (num den : Nat)
  deriving Repr, DecidableEq

namespace Binary64

/-- Takes a number apart into its sign, exponent and fraction bits. -/
def ofBits (bits : Nat) : Binary64 :=
  let negative := bits / twoTo 63 % 2 == 1
  let exponent := bits / twoTo 52 % twoTo 11
  let fraction := bits % twoTo 52
  if exponent = 2047 then if fraction = 0 then infinite negative else nan
  else if exponent = 0 then finite negative fraction (twoTo 1074)
  else if exponent < 1075 then finite negative (twoTo 52 + fraction) (twoTo (1075 - exponent))
  else finite negative ((twoTo 52 + fraction) * twoTo (exponent - 1075)) 1

end Binary64

/-! ## Rounding -/

/-- The whole number nearest to a quotient, the even one of two. -/
def roundHalfEven (num den : Nat) : Nat :=
  let q := num / den
  let r := num % den
  if 2 * r < den then q else if den < 2 * r then q + 1 else if q % 2 = 0 then q else q + 1

/-- The greatest `e` such that ten to the `e` is not above a positive quotient. -/
def decimalExponent (num den : Nat) : Int :=
  let e : Int := (decimal num).length - (decimal den).length
  let reached := if 0 ≤ e then den * tenTo e.toNat ≤ num else den ≤ num * tenTo (-e).toNat
  if reached then e else e - 1

/-- A quotient as `digits` significant digits and the exponent of the first of them. -/
def significant (digits num den : Nat) : Nat × Int :=
  let e := decimalExponent num den
  let shift : Int := digits - 1 - e
  let n := roundHalfEven (num * tenTo shift.toNat) (den * tenTo (-shift).toNat)
  if n = tenTo digits then (tenTo (digits - 1), e + 1) else (n, e)

/-! ## Layout -/

structure NumberFormat where
  /-- The count of significant digits. Exponents from this one on are written as such. -/
  digits : Nat
  /-- Exponents below this one are written as such. -/
  minPositional : Int
  /-- The least count of digits in an exponent. -/
  exponentDigits : Nat

namespace NumberFormat

/-- Six significant digits, and an exponent outside of 10⁻⁴ to 10⁶. -/
def general : NumberFormat := ⟨6, -4, 2⟩

def zero : UInt8 := UInt8.ofNat '0'.toNat

/-- A fraction with its point and without the zeros at its end, or nothing at all. -/
def fraction (digits : Bytes) : Bytes :=
  let digits := (digits.reverse.dropWhile (· == zero)).reverse
  if digits.isEmpty then [] else ascii "." ++ digits

def exponent (f : NumberFormat) (e : Int) : Bytes :=
  let digits := decimal e.natAbs
  ascii (if e < 0 then "e-" else "e+") ++
    List.replicate (f.exponentDigits - digits.length) zero ++ digits

def positive (f : NumberFormat) (num den : Nat) : Bytes :=
  let (n, e) := significant f.digits num den
  let digits := decimal n
  if e < f.minPositional ∨ f.digits ≤ e then
    digits.take 1 ++ fraction (digits.drop 1) ++ f.exponent e
  else if e < 0 then [zero] ++ fraction (List.replicate (-e - 1).toNat zero ++ digits)
  else digits.take (e + 1).toNat ++ fraction (digits.drop (e + 1).toNat)

def signed (negative : Bool) (s : Bytes) : Bytes := if negative then ascii "-" ++ s else s

def write (f : NumberFormat) : Binary64 → Bytes
  | .nan => ascii "nan"
  | .infinite negative => signed negative (ascii "inf")
  | .finite negative num den => signed negative (if num = 0 then [zero] else f.positive num den)

end NumberFormat

end LexicalPath
