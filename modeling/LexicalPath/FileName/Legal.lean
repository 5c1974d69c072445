import LexicalPath.FileName.Truncate
import LexicalPath.FileSystem.Profile
import LexicalPath.Log.Notice

/-! # Legal file names -/

namespace LexicalPath.FileName

def hasIllegal (fs : Profile) (name : Text) : Bool := name.codePoints.any fs.isIllegal

/-- A legal name is not empty, fits the file system, is not reserved and has no illegal code
point. -/
def isLegal (fs : Profile) (cs : Charset) (name : Text) : Bool :=
  !name.isEmpty && fits fs.lengthUnit cs fs.maxNameLength name && !fs.isReserved name &&
    !hasIllegal fs name

def isLegalBytes (fs : Profile) (cs : Charset) (name : Bytes) : Bool :=
  (Utf8.toText? name).any (isLegal fs cs)

/-! ## Making a name legal -/

def replaceIllegal (fs : Profile) (replacement : CodePoint) (name : Text) : Text :=
  Text.ofCodePoints (name.codePoints.map fun c => if fs.isIllegal c then replacement else c)

def checkReplacement (fs : Profile) (replacement : CodePoint) : Except NameError Unit :=
  if !replacement.isScalar then .error (.invalidReplacement replacement)
  else if fs.isIllegal replacement then
    .error (.illegalReplacement replacement fs.name fs.illegal.toList)
  else .ok ()

/-- Shortens a name if the replacements have made it too long, and says so. -/
def refit (fs : Profile) (cs : Charset) (replacement : CodePoint) (name : Text) :
    Noted (Except NameError Text) :=
  if fits fs.lengthUnit cs fs.maxNameLength name then ⟨.ok name, []⟩
  else
    ⟨truncate fs.lengthUnit cs fs.maxNameLength name,
      [.grown replacement name fs.maxNameLength (ascii fs.lengthUnit.name) fs.name]⟩

/-- The candidate as a name that fits the file system and has no illegal code point. It is cut
first, then each illegal code point gives way to the replacement. Reserved names stay reserved. -/
def toLegal (fs : Profile) (cs : Charset) (replacement : CodePoint) (candidate : Text) :
    Noted (Except NameError Text) :=
  if candidate.isEmpty then ⟨.error .emptyCandidate, []⟩
  else
    match checkReplacement fs replacement with
    | .error e => ⟨.error e, []⟩
    | .ok () =>
      match truncate fs.lengthUnit cs fs.maxNameLength candidate with
      | .error e => ⟨.error e, []⟩
      | .ok name => refit fs cs replacement (replaceIllegal fs replacement name)

end LexicalPath.FileName
