import LexicalPath.Normal.Basic

/-!
# Parts of a path

A path is its prefix, then its directory up to the last separator, then its name. An extension
starts at the last dot of the name.
-/

namespace LexicalPath.Path

/-! ## Prefix and directory -/

/-- The prefix of a path, completed by a separator if it is virtual. -/
def anchor (path : Text) : Except PathError (Option Text) :=
  match Prefix.length? path with
  | none => .ok none
  | some start =>
    some <$> clean (if path.length < start then path ++ [Separator.slash.unit] else path.take start)

/-- The number of units in front of the name, with or without the separator there. -/
def directoryEnd (ending : Ending) (lastSeparator : Nat) : Nat :=
  match ending with
  | .kept => lastSeparator + 1
  | .dropped => lastSeparator

/-- The path between its prefix and its name. -/
def directory (ending : Ending) (path : Text) : Except PathError (Option Text) :=
  match Prefix.length? path with
  | none => .ok none
  | some start =>
    match path.lastSeparatorIdx? with
    | none => .ok (some [])
    | some i =>
      if path.length ≤ start ∨ directoryEnd ending i ≤ start then .ok (some [])
      else some <$> clean ((path.take (directoryEnd ending i)).drop start)

/-- The path up to its name. The root keeps its separator in any case. -/
def fullDirectory (ending : Ending) (path : Text) : Except PathError (Option Text) :=
  match Prefix.length? path with
  | none => .ok none
  | some start =>
    if path.length ≤ start then
      match ending with
      | .kept => anchor path
      | .dropped => .ok (some path)
    else
      match path.lastSeparatorIdx? with
      | none => .ok (some (path.take start))
      | some i => .ok (some (path.take (max 1 (directoryEnd ending i))))

/-! ## Name and extension -/

/-- The index of the dot in front of the extension. -/
def extensionIdx? (path : Text) : Option Nat :=
  match path.lastIndexOf? CodeUnit.dot, path.lastSeparatorIdx? with
  | none, _ => none
  | some dot, none => some dot
  | some dot, some separator => if dot < separator then none else some dot

/-- The path behind its last separator. -/
def name (path : Text) : Except PathError Text := do
  let path ← clean path
  match path.lastSeparatorIdx? with
  | none => return path
  | some i => return path.drop (i + 1)

def withoutExtension (path : Text) : Except PathError Text := do
  let path ← clean path
  match extensionIdx? path with
  | none => return path
  | some i => return path.take i

def baseName (path : Text) : Except PathError Text := do
  withoutExtension (← name path)

/-- The path behind the dot of its extension, and nothing without an extension. -/
def extension (path : Text) : Text :=
  match extensionIdx? path with
  | none => []
  | some i => path.drop (i + 1)

/-- Whether the path has this extension. The empty text asks for a path without one. -/
def hasExtension (path ext : Text) : Except PathError Bool := do
  let path ← clean path
  if ext.isEmpty then return (extensionIdx? path).isNone
  return extension path == ext

/-- Whether the path has one of these extensions. An empty list asks for a path without one. -/
def hasAnyExtension (path : Text) (exts : List Text) : Except PathError Bool := do
  let path ← clean path
  if exts.isEmpty then return (extensionIdx? path).isNone
  return exts.contains (extension path)

end LexicalPath.Path
