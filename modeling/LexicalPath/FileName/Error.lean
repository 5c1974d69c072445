import LexicalPath.FileName.Length
import LexicalPath.Message

/-! # Why a file name is refused -/

namespace LexicalPath

inductive NameError where
  /-- The extension alone is longer than the limit. -/
  | extensionTooLong (extension : Text) (length : Nat) (limit : Int) (unit : LengthUnit)
  | unencodable (charset : Charset)
  | emptyCandidate
  /-- The replacement is a surrogate or above U+10FFFF. -/
  | invalidReplacement (replacement : CodePoint)
  /-- The replacement is itself illegal in the file system. -/
  | illegalReplacement (replacement : CodePoint) (system : Bytes) (illegal : List CodePoint)

namespace NameError

/-- The numbers of a list between brackets. -/
def listed (cs : List CodePoint) : Bytes :=
  ascii "[" ++ (ascii ", ").intercalate (cs.map decimal) ++ ascii "]"

/-- A code point as in other messages, but NUL by its escape. -/
def shown (c : CodePoint) : Message := if c = 0 then [.words "'\\0'"] else Message.codePoint c

def message : NameError → Message
  | extensionTooLong ext length limit unit =>
    [.words "File name extension '", .text ext, .words "' of ", .number length, .words " ",
      .words unit.name, .words " exceeds the limit of ", .number limit, .words " ",
      .words unit.name]
  | unencodable cs =>
    [.words "File name contains characters that cannot be encoded with charset ", .words cs.name]
  | emptyCandidate => [.words "The candidate file name is empty"]
  | invalidReplacement c => [.words "The replacement U+", .hex c, .words " is not a valid code point"]
  | illegalReplacement c system illegal =>
    [.words "The replacement character "] ++ shown c ++
      [.words " cannot be one of the ", .bytes system, .words " illegal characters: ",
        .bytes (listed illegal)]

end NameError

end LexicalPath
