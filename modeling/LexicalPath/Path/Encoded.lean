import LexicalPath.Log.Notice
import LexicalPath.Normal.Basic

/-! # Paths in UTF-8 -/

namespace LexicalPath.EncodedPath

/-- The result of an operation on paths in UTF-8. -/
abbrev Result := Noted (Except PathError (Option Bytes))

def encode (r : Except PathError (Option Text)) : Except PathError (Option Bytes) :=
  r.map fun path => path.map Utf8.ofText

/-- Bytes that are no valid UTF-8 are no path. -/
def refuse (path : Bytes) : Result := ⟨.ok none, [.invalidPath path]⟩

def normalize (sep : Separator) (ending : Ending) (path : Bytes) : Result :=
  match Utf8.toText? path with
  | none => refuse path
  | some t => ⟨encode (Path.normalize sep ending t), []⟩

/-- Of two invalid paths only the first is reported. -/
def join (base path : Bytes) : Result :=
  match Utf8.toText? base with
  | none => refuse base
  | some b =>
    match Utf8.toText? path with
    | none => refuse path
    | some t => ⟨encode (Path.join b t), []⟩

end LexicalPath.EncodedPath
