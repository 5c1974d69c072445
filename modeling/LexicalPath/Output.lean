import LexicalPath.Bytes

/-! # Console output -/

namespace LexicalPath

/-- What was written to the two streams of a console. -/
structure Output where
  out : Bytes := []
  err : Bytes := []
  deriving Repr, DecidableEq

namespace Output

def append (a b : Output) : Output := ⟨a.out ++ b.out, a.err ++ b.err⟩

instance : Append Output := ⟨append⟩

def toOut (s : Bytes) : Output := { out := s }

def toErr (s : Bytes) : Output := { err := s }

end Output

end LexicalPath
