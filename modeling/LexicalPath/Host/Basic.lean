import LexicalPath.Text.Basic

/-!
# Host names

A host is named by an IPv4 address in dotted decimal form, by an IPv6 address or by a registered
name. An IPv6 address is made of groups of up to four hexadecimal digits between single colons. One
double colon may stand for a row of zero groups, and the last group may be an IPv4 address, which
counts as two groups.
-/

namespace LexicalPath

/-! ## IPv4 addresses -/

namespace Ipv4

def digitsValue (t : Text) : Nat := t.foldl (fun n u => n * 10 + (u.toNat - 48)) 0

/-- An octet is the shortest decimal form of a number up to 255. -/
def isOctet (t : Text) : Bool :=
  1 ≤ t.length && t.length ≤ 3 && t.all CodeUnit.isDigit && digitsValue t ≤ 255 &&
    (t.length == 1 || t.head? != some (CodeUnit.ofChar '0'))

def isAddress (t : Text) : Bool :=
  let octets := t.splitOnP (· == CodeUnit.dot)
  octets.length == 4 && octets.all isOctet

end Ipv4

/-! ## IPv6 addresses -/

namespace Ipv6

def maxGroups : Nat := 8

def maxDigits : Nat := 4

def singleColon : Text := [CodeUnit.colon]

def doubleColon : Text := [CodeUnit.colon, CodeUnit.colon]

def dropTrailingEmpty (groups : List Text) : List Text :=
  (groups.reverse.dropWhile List.isEmpty).reverse

/-- The groups between colons. Empty groups at the end are dropped, unless there is no colon. -/
def colonGroups (t : Text) : List Text :=
  if t.contains CodeUnit.colon then dropTrailingEmpty (t.splitOnP (· == CodeUnit.colon)) else [t]

/-- The groups to be counted, where a double colon takes the place of one empty group. -/
def groups (t : Text) : List Text :=
  if (t.indexOfText? doubleColon 0).isNone then colonGroups t
  else if doubleColon.isSuffixOf t then colonGroups t ++ [[]]
  else if doubleColon.isPrefixOf t then (colonGroups t).drop 1
  else colonGroups t

/-- The number of groups, or nothing if one of them is malformed or two empty ones adjoin.
`afterEmpty` says whether an empty group stands in front. -/
def weight? (afterEmpty : Bool) : List Text → Option Nat
  | [] => some 0
  | g :: gs =>
    if g.isEmpty then
      if afterEmpty then none else (weight? true gs).map (· + 1)
    else if gs.isEmpty && g.contains CodeUnit.dot then
      if Ipv4.isAddress g then some 2 else none
    else if g.length ≤ maxDigits && g.all CodeUnit.isHexDigit then
      (weight? false gs).map (· + 1)
    else none

/-- A colon at either end of the text has to be part of a double colon. -/
def hasLooseColon (t : Text) : Bool :=
  (singleColon.isPrefixOf t && !doubleColon.isPrefixOf t) ||
    (singleColon.isSuffixOf t && !doubleColon.isSuffixOf t)

/-- The double colon must not occur twice, not even with a colon in common. -/
def hasSecondDoubleColon (t : Text) : Bool :=
  match t.indexOfText? doubleColon 0 with
  | none => false
  | some i => (t.indexOfText? doubleColon (i + 1)).isSome

def isAddress (t : Text) : Bool :=
  !hasSecondDoubleColon t && !hasLooseColon t && (groups t).length ≤ maxGroups &&
    match weight? false (groups t) with
    | none => false
    | some n => n ≤ maxGroups && (maxGroups ≤ n || (t.indexOfText? doubleColon 0).isSome)

end Ipv6

/-! ## Registered names -/

namespace RegisteredName

def isAlphanumeric (u : CodeUnit) : Bool := u.isLetter || u.isDigit

/-- A label starts with an ASCII letter or digit and goes on with those and hyphens. -/
def isLabel : Text → Bool
  | [] => false
  | u :: t => isAlphanumeric u && t.all fun v => isAlphanumeric v || v == CodeUnit.hyphen

def areLabels : List Text → Bool
  | [] => true
  | l :: ls => if l.isEmpty then ls.isEmpty else isLabel l && areLabels ls

/-- Labels with a dot between each two and possibly one more dot at the end. The empty text counts
as a name. -/
def isName (t : Text) : Bool := areLabels (t.splitOnP (· == CodeUnit.dot))

end RegisteredName

/-! ## Hosts -/

namespace Host

/-- A host is given by an IPv4 address, an IPv6 address or a registered name. -/
def isValid (t : Text) : Bool := Ipv4.isAddress t || Ipv6.isAddress t || RegisteredName.isName t

end Host

end LexicalPath
