import LexicalPath.Message
import LexicalPath.Normal.Edit
import LexicalPath.Prefix

/-! # Normal paths -/

namespace LexicalPath

inductive PathError where
  /-- The path, or the part that was asked for, holds a NUL. -/
  | nulUnit
  deriving Repr, DecidableEq

namespace PathError

def message : PathError → Message
  | nulUnit =>
    [.words "Null byte present in file/path name. There are no known legitimate use cases",
      .words " for such data, but several injection attacks may use it"]

end PathError

namespace Path

def clean (t : Text) : Except PathError Text :=
  if t.contains CodeUnit.nul then .error .nulUnit else .ok t

theorem clean_of_nul (t : Text) (h : CodeUnit.nul ∈ t) : clean t = .error .nulUnit := by
  unfold clean
  rw [if_pos (List.contains_iff_mem.mpr h)]

theorem clean_of_not_nul (t : Text) (h : CodeUnit.nul ∉ t) : clean t = .ok t := by
  unfold clean
  rw [if_neg (fun hmem => h (List.contains_iff_mem.mp hmem))]

/-! ## Normal forms -/

/-- The normal form of a path, or nothing if its prefix is invalid or it steps out of the place
that it starts from. -/
def normalize (sep : Separator) (ending : Ending) (path : Text) :
    Except PathError (Option Text) := do
  let path ← clean path
  if path.isEmpty then return some []
  match Prefix.length? path with
  | none => return none
  | some start => return (Scan.edit sep ending start path).toOption

/-! ## Joining -/

/-- The first path with the second one behind it and a separator in between. -/
def append (base path : Text) : Text :=
  if base.endsWithSeparator then base ++ path else base ++ Separator.slash.unit :: path

/-- The normal form of `path`, taken from `base` on if `path` is relative. -/
def join (base path : Text) : Except PathError (Option Text) :=
  match Prefix.length? path with
  | none => .ok none
  | some n =>
    if 0 < n ∨ base.isEmpty then normalize .system .kept path
    else normalize .system .kept (append base path)

end Path

end LexicalPath
