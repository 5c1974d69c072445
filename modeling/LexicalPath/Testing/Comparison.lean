/-! # Comparisons in assertions -/

namespace LexicalPath.Testing

/-- What a value is in relation to the one it is compared with. -/
structure Comparison where
  eq : Bool
  gt : Bool
  lt : Bool
  deriving Repr, DecidableEq

namespace Comparison

def ofInts (a b : Int) : Comparison := ⟨a == b, b < a, a < b⟩

/-- Compares an unsigned number with an integer, which is taken modulo `2 ^ bits`. -/
def ofUnsigned (bits : Nat) (a : Nat) (b : Int) : Comparison := ofInts a (b % Nat.pow 2 bits)

/-- The distance from which on two real numbers differ. -/
def tolerance : Float := Float.scaleB 1.0 (-51)

/-- Real numbers are equal within the tolerance, but greater and less by any distance. -/
def ofReals (a b : Float) : Comparison := ⟨(a - b).abs < tolerance, b < a, a < b⟩

end Comparison

end LexicalPath.Testing
