/-!
# Code units

A text is a sequence of UTF-16 code units, and nothing says that its surrogates are paired. Case is
folded for the ASCII letters only.
-/

namespace LexicalPath

abbrev CodeUnit := UInt16

namespace CodeUnit

/-- The code unit of a character below U+10000. -/
def ofChar (c : Char) : CodeUnit := UInt16.ofNat c.toNat

def nul : CodeUnit := 0
def dot : CodeUnit := ofChar '.'
def colon : CodeUnit := ofChar ':'
def tilde : CodeUnit := ofChar '~'
def hyphen : CodeUnit := ofChar '-'
def slash : CodeUnit := ofChar '/'
def backslash : CodeUnit := ofChar '\\'

/-! ## Surrogates -/

def isHighSurrogate (u : CodeUnit) : Bool := 0xD800 ≤ u.toNat && u.toNat ≤ 0xDBFF

def isLowSurrogate (u : CodeUnit) : Bool := 0xDC00 ≤ u.toNat && u.toNat ≤ 0xDFFF

def isSurrogate (u : CodeUnit) : Bool := 0xD800 ≤ u.toNat && u.toNat ≤ 0xDFFF

/-- Whether a unit in front of `next` is a surrogate that is not the first half of a pair. -/
def isUnpaired (u : CodeUnit) (next : Option CodeUnit) : Bool :=
  u.isSurrogate && (!u.isHighSurrogate || !next.any isLowSurrogate)

theorem isSurrogate_eq_or (u : CodeUnit) :
    u.isSurrogate = (u.isHighSurrogate || u.isLowSurrogate) := by
  rw [Bool.eq_iff_iff]
  simp only [isSurrogate, isHighSurrogate, isLowSurrogate, Bool.and_eq_true, Bool.or_eq_true,
    decide_eq_true_eq]
  omega

theorem isLowSurrogate_eq_false_of_isHighSurrogate {u : CodeUnit} (h : u.isHighSurrogate = true) :
    u.isLowSurrogate = false := by
  simp only [isHighSurrogate, isLowSurrogate, Bool.and_eq_true, Bool.and_eq_false_iff,
    decide_eq_true_eq, decide_eq_false_iff_not] at *
  omega

/-! ## ASCII classes -/

def isDigit (u : CodeUnit) : Bool := 48 ≤ u.toNat && u.toNat ≤ 57

def isLetter (u : CodeUnit) : Bool :=
  (97 ≤ u.toNat && u.toNat ≤ 122) || (65 ≤ u.toNat && u.toNat ≤ 90)

def isHexDigit (u : CodeUnit) : Bool :=
  u.isDigit || (97 ≤ u.toNat && u.toNat ≤ 102) || (65 ≤ u.toNat && u.toNat ≤ 70)

/-- Maps the ASCII lower-case letters to upper case and every other unit to itself. -/
def upper (u : CodeUnit) : CodeUnit := if 97 ≤ u.toNat ∧ u.toNat ≤ 122 then u - 32 else u

end CodeUnit

end LexicalPath
