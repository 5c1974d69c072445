import LexicalPath.FileName.Length
import LexicalPath.FileSystem.Table
import LexicalPath.Separator

/-! # What a file system takes for a name -/

namespace LexicalPath

inductive SystemType where
  | generic
  | linux
  | macOSX
  | windows
  deriving Repr, DecidableEq

/-- The rules of a file system. The tables are sorted, since they are searched by bisection. -/
structure Profile where
  type : SystemType
  name : Bytes
  blockSize : Int
  caseSensitive : Bool
  casePreserving : Bool
  maxNameLength : Int
  maxPathLength : Int
  lengthUnit : LengthUnit
  /-- The code points that no name may hold, in ascending order. -/
  illegal : Array CodePoint
  /-- The names that no file may have, in the order of their code units. They are in upper case
  where case does not matter. -/
  reserved : Array Text
  /-- Whether a reserved name stays reserved with an extension behind it. -/
  reservesExtensions : Bool
  hasDriveLetters : Bool
  separator : CodeUnit
  deriving DecidableEq

namespace Profile

def isIllegal (fs : Profile) (c : CodePoint) : Bool :=
  Table.contains (fun a b => decide (a < b)) fs.illegal c

/-- The part of a name that is looked up among the reserved names. -/
def stem (fs : Profile) (name : Text) : Text :=
  if fs.reservesExtensions then FileName.base name else name

def isReserved (fs : Profile) (name : Text) : Bool :=
  if fs.caseSensitive then Table.contains Text.less fs.reserved (fs.stem name)
  else Table.contains Text.lessFold fs.reserved (fs.stem name)

/-- The path with the separator of the file system in place of the other one. -/
def withSeparator (fs : Profile) (path : Text) : Text :=
  if fs.separator = CodeUnit.slash then path.replaceUnit CodeUnit.backslash fs.separator
  else path.replaceUnit CodeUnit.slash fs.separator

end Profile

end LexicalPath
