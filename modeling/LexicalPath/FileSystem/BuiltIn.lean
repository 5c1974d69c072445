import LexicalPath.FileSystem.Profile
import LexicalPath.Log.Notice

/-! # The profiles of the common systems -/

namespace LexicalPath.Profile

def generic : Profile where
  type := .generic
  name := ascii "Generic"
  blockSize := 4096
  caseSensitive := false
  casePreserving := false
  maxNameLength := 1020
  maxPathLength := 1048576
  lengthUnit := .bytes
  illegal := #[0]
  reserved := #[]
  reservesExtensions := false
  hasDriveLetters := false
  separator := CodeUnit.slash

def linux : Profile where
  type := .linux
  name := ascii "Linux"
  blockSize := 8192
  caseSensitive := true
  casePreserving := true
  maxNameLength := 255
  maxPathLength := 4096
  lengthUnit := .bytes
  illegal := #[0, 47]
  reserved := #[]
  reservesExtensions := false
  hasDriveLetters := false
  separator := CodeUnit.slash

def macOSX : Profile where
  type := .macOSX
  name := ascii "MacOSX"
  blockSize := 4096
  caseSensitive := true
  casePreserving := true
  maxNameLength := 255
  maxPathLength := 1024
  lengthUnit := .utf16
  illegal := #[0, 47, 58]
  reserved := #[]
  reservesExtensions := false
  hasDriveLetters := false
  separator := CodeUnit.slash

/-- The control characters and the punctuation that separates or matches names. -/
def windowsIllegal : Array CodePoint :=
  #[0, 1, 2, 3, 4, 5, 6, 7, 8, 9, 10, 11, 12, 13, 14, 15, 16, 17, 18, 19, 20, 21, 22, 23, 24, 25,
    26, 27, 28, 29, 30, 31, 34, 42, 47, 58, 60, 62, 63, 92, 124]

/-- The names of devices, of which the numbered ones come with superscript digits too. -/
def windowsReserved : Array Text :=
  #["AUX", "COM1", "COM2", "COM3", "COM4", "COM5", "COM6", "COM7", "COM8", "COM9", "COM²", "COM³",
    "COM¹", "CON", "CONIN$", "CONOUT$", "LPT1", "LPT2", "LPT3", "LPT4", "LPT5", "LPT6", "LPT7",
    "LPT8", "LPT9", "LPT²", "LPT³", "LPT¹", "NUL", "PRN"].map Text.ofString

def windows : Profile where
  type := .windows
  name := ascii "Windows"
  blockSize := 4096
  caseSensitive := false
  casePreserving := true
  maxNameLength := 255
  maxPathLength := 32767
  lengthUnit := .utf16
  illegal := windowsIllegal
  reserved := windowsReserved
  reservesExtensions := true
  hasDriveLetters := true
  separator := CodeUnit.backslash

/-- The profile for the system of a name, which may go on with a version. -/
def ofSystemName (system : Bytes) : Profile :=
  if system.startsWithFold (ascii "Linux") then linux
  else if system.startsWithFold (ascii "Mac") then macOSX
  else if system.startsWithFold (ascii "Windows") then windows
  else generic

def ofHost (system : Bytes) : Noted Profile :=
  ⟨ofSystemName system, [.host system (ofSystemName system).name]⟩

end LexicalPath.Profile
