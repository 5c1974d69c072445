import LexicalPath.Printing.FileLabel
import LexicalPath.Printing.Significant

/-! # Text buffers -/

namespace LexicalPath

inductive Item where
  | number (n : Int)
  | real (x : Float)
  | truth (b : Bool)
  | byte (b : UInt8)
  /-- A character in quotes or by its number. -/
  | codePoint (c : CodePoint)
  | bytes (s : Bytes)
  | text (t : Text)
  | null
  /-- An optional value that is not there. -/
  | absent

namespace Item

def render : Item → Bytes
  | number n => signedDecimal n
  | real x => NumberFormat.general.write (.ofBits x.toBits.toNat)
  | truth b => ascii (if b then "true" else "false")
  | byte b => [b]
  | codePoint c => (Message.codePoint c).render
  | bytes s => s
  | text t => t.escaped
  | null => ascii "null"
  | absent => ascii "nullopt"

/-- An item in at most `limit` bytes, with dots behind it if it has been cut. -/
def short (limit : Nat) (i : Item) : Bytes := i.render.abbreviate limit (ascii "...")

def shortLimit : Nat := 512

end Item

structure TextBuffer where
  content : Bytes := []
  deriving Repr, DecidableEq

namespace TextBuffer

def size (b : TextBuffer) : Nat := b.content.length

def append (b : TextBuffer) (s : Bytes) : TextBuffer := ⟨b.content ++ s⟩

def write (b : TextBuffer) (i : Item) : TextBuffer := b.append i.render

def writeLine (b : TextBuffer) (i : Option Item) : TextBuffer :=
  (b.append (i.elim [] Item.render)).append (ascii "\n")

def writeQuote (b : TextBuffer) : TextBuffer := b.append (ascii "\"")

def messageLimit : Nat := 4095

def writeMessage (b : TextBuffer) (m : Message) : TextBuffer :=
  b.append (m.render.take messageLimit)

def clear (_ : TextBuffer) : TextBuffer := {}

end TextBuffer

end LexicalPath
