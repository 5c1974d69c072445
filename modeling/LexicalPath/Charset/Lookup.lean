import LexicalPath.Log.Notice

/-! # Charsets and their names -/

namespace LexicalPath

inductive Charset where
  | utf8
  | usAscii
  | latin1
  | utf16LE
  | utf16BE
  deriving Repr, DecidableEq

namespace Charset

def name : Charset → String
  | utf8 => "UTF-8"
  | usAscii => "US-ASCII"
  | latin1 => "ISO-8859-1"
  | utf16LE => "UTF-16LE"
  | utf16BE => "UTF-16BE"

def standard : Charset := utf8

/-! ## Look-up by name -/

def aliases : List (String × Charset) :=
  [("UTF-8", utf8), ("UTF8", utf8), ("US-ASCII", usAscii), ("ASCII", usAscii),
    ("ISO-8859-1", latin1), ("ISO8859-1", latin1), ("LATIN1", latin1), ("UTF-16LE", utf16LE),
    ("UTF-16BE", utf16BE), ("UTF-16", utf16BE)]

/-- The charset of a name in any case. An unknown name is reported. -/
def ofName? (name : Bytes) : Noted (Option Charset) :=
  match aliases.find? fun a => (ascii a.1).equalFold name with
  | some a => ⟨some a.2, []⟩
  | none => ⟨none, [.unknownCharset name]⟩

end Charset

end LexicalPath
