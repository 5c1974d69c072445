/-!
# Look-up in sorted tables

Binary search by a strict order. It finds what is in the table as long as the table is sorted by
that order.
-/

namespace LexicalPath.Table

variable {α : Type}

/-- Narrows the range of `count` entries from `first` on down to the first entry that is not less
than `a`. Each round at least halves the range. -/
def narrow (less : α → α → Bool) (table : Array α) (a : α) : Nat → Nat → Nat → Nat
  | 0, first, _ => first
  | _ + 1, first, 0 => first
  | rounds + 1, first, count + 1 =>
    let half := (count + 1) / 2
    match table[first + half]? with
    | none => first
    | some b =>
      if less b a then narrow less table a rounds (first + half + 1) (count - half)
      else narrow less table a rounds first half

/-- The index of the first entry that is not less than `a`. -/
def lowerBound (less : α → α → Bool) (table : Array α) (a : α) : Nat :=
  narrow less table a table.size 0 table.size

/-- Whether the table holds an entry that is neither less nor greater than `a`. -/
def contains (less : α → α → Bool) (table : Array α) (a : α) : Bool :=
  table[lowerBound less table a]?.any fun b => !less a b

end LexicalPath.Table
