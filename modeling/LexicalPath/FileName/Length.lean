import LexicalPath.Charset.Encode

/-! # The length of file names -/

namespace LexicalPath

/-- What a file system counts in the length of a name. -/
inductive LengthUnit where
  | bytes
  | utf16
  deriving Repr, DecidableEq

namespace LengthUnit

def name : LengthUnit → String
  | bytes => "bytes"
  | utf16 => "UTF-16 code units"

end LengthUnit

namespace FileName

/-- The length of a name that the charset cannot encode. No other name is that long. -/
def unmeasurable : Nat := 2147483647

/-- The index of the extension, which starts at the first dot behind the first unit. -/
def extensionIdx? (name : Text) : Option Nat := name.indexOf? CodeUnit.dot 1

def base (name : Text) : Text :=
  match extensionIdx? name with
  | none => name
  | some i => name.take i

def extension (name : Text) : Text :=
  match extensionIdx? name with
  | none => []
  | some i => name.drop i

theorem base_append_extension (name : Text) : base name ++ extension name = name := by
  unfold base extension
  cases extensionIdx? name <;> simp

def measure (unit : LengthUnit) (cs : Charset) (name : Text) : Nat :=
  match unit with
  | .utf16 => name.length
  | .bytes => (cs.encodedLength? name).getD unmeasurable

def fits (unit : LengthUnit) (cs : Charset) (limit : Int) (name : Text) : Bool :=
  measure unit cs name ≤ limit

end FileName

end LexicalPath
