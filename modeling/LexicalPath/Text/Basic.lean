import LexicalPath.Text.Unit
import LexicalPath.Text.Search

/-! # Texts: slices, comparison and search -/

namespace LexicalPath

/-- A sequence of UTF-16 code units. Unpaired surrogates and NUL are ordinary units of it. -/
abbrev Text := List CodeUnit

namespace Text

/-- At most `count` units from `start` on. A negative start counts as 0, and a negative count takes
everything that is left. -/
def slice (t : Text) (start count : Int) : Text :=
  let rest := t.drop start.toNat
  if count < 0 then rest else rest.take count.toNat

/-! ## Case -/

def fold (t : Text) : Text := t.map CodeUnit.upper

def equalFold (a b : Text) : Bool := a.fold == b.fold

def startsWithFold (t start : Text) : Bool := start.fold.isPrefixOf t.fold

/-! ## Order -/

def order : Text → Text → Ordering
  | [], [] => .eq
  | [], _ :: _ => .lt
  | _ :: _, [] => .gt
  | a :: s, b :: t => (compare a.toNat b.toNat).then (order s t)

def less (a b : Text) : Bool := a.order b == .lt

def lessFold (a b : Text) : Bool := a.fold.less b.fold

/-! ## Search -/

def indexOf? (t : Text) (u : CodeUnit) (start : Int) : Option Nat :=
  Search.next? (· == u) t start.toNat

def lastIndexOf? (t : Text) (u : CodeUnit) : Option Nat := Search.last? (· == u) t

def indexOfText? (t s : Text) (start : Int) : Option Nat := Search.nextBlock? s t start.toNat

def untilNul (t : Text) : Text := t.takeWhile (· != CodeUnit.nul)

/-- The first `count` units, or the text in front of the first NUL if `count` is negative. -/
def firstUnits (t : Text) (count : Int) : Text :=
  if count < 0 then t.untilNul else t.take count.toNat

end Text

end LexicalPath
