import LexicalPath.Message

/-!
# Notices

What the operations on paths and names have to say beside their result.
-/

namespace LexicalPath

namespace Log

inductive Severity where
  | info
  | warn
  | error
  deriving Repr, DecidableEq

def Severity.rank : Severity → Nat
  | info => 0
  | warn => 1
  | error => 2

end Log

/-- A remark that an operation leaves in the log. -/
inductive Notice where
  /-- A path was refused because its bytes are not valid UTF-8. -/
  | invalidPath (raw : Bytes)
  | unknownCharset (name : Bytes)
  /-- Replacing illegal code points made a name longer than a file system allows. -/
  | grown (replacement : CodePoint) (name : Text) (limit : Int) (unitName system : Bytes)
  /-- The host runs on this system, and its names follow this profile. -/
  | host (system profile : Bytes)

namespace Notice

def severity : Notice → Log.Severity
  | host .. => .info
  | _ => .warn

def fields : Notice → Message
  | invalidPath raw => [.words "rejected path with invalid UTF-8: '", .bytes raw, .words "'"]
  | unknownCharset name => [.words "unsupported charset '", .bytes name, .words "'"]
  | grown replacement name limit unitName system =>
    [.words "replacement U+", .hex replacement, .words " grew '", .text name, .words "' over the ",
      .number limit, .words " ", .bytes unitName, .words " limit of ", .bytes system,
      .words ", truncating again"]
  | host system profile =>
    [.words "host OS '", .bytes system, .words "' uses the ", .bytes profile,
      .words " file system profile"]

/-- The width of the mark in front of a notice, which says where in the program it arose and takes
its part of the line. -/
def markWidth : Notice → Nat
  | invalidPath _ => 29
  | unknownCharset _ => 26
  | grown .. => 39
  | host .. => 2

/-- The text of a notice without its mark, cut so that both fit a line. -/
def text (n : Notice) : Bytes := n.fields.render.take (Message.lineLimit - n.markWidth)

end Notice

/-- A result together with the notices that arose on the way to it. -/
structure Noted (α : Type) where
  value : α
  notices : List Notice := []

end LexicalPath
