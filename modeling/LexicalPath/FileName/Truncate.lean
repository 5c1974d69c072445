import LexicalPath.FileName.Error

/-!
# Shortening file names

A name that is too long loses the end of its base and keeps its extension. Neither a surrogate pair
nor the bytes of a code point are cut apart.
-/

namespace LexicalPath.FileName

/-- The first `count` units, less a surrogate at the end that has lost its other half. -/
def cutUnits (t : Text) (count : Nat) : Text :=
  if 0 < count ∧ t[count - 1]?.any CodeUnit.isHighSurrogate then t.take (count - 1)
  else t.take count

def truncateUnits (limit : Int) (name : Text) : Except NameError Text :=
  let ext := extension name
  if name.length ≤ limit then .ok name
  else if limit < ext.length then .error (.extensionTooLong ext ext.length limit .utf16)
  else .ok (cutUnits (base name) (limit - ext.length).toNat ++ ext)

/-- The part of a text that the charset can put into `room` bytes. -/
def cutBytes (cs : Charset) (t : Text) (room : Nat) : Except NameError Text :=
  let run := cs.encodeInto room t
  match run.status with
  | .underflow | .overflow => .ok (t.take run.consumed)
  | .malformed | .unmappable => .error (.unencodable cs)

def truncateBytes (cs : Charset) (limit : Int) (name : Text) : Except NameError Text :=
  match cs.encodedLength? name, cs.encodedLength? (extension name) with
  | some length, some extLength =>
    -- With this few units the name fits whatever they are.
    if name.length ≤ limit.tdiv cs.maxBytesPerUnit then .ok name
    else if length ≤ limit then .ok name
    else if limit < extLength then
      .error (.extensionTooLong (extension name) extLength limit .bytes)
    else (cutBytes cs (base name) (limit - extLength).toNat).map (· ++ extension name)
  | _, _ => .error (.unencodable cs)

/-- The name itself if it fits the limit, and otherwise the longest part of its base that fits
together with the extension. -/
def truncate (unit : LengthUnit) (cs : Charset) (limit : Int) (name : Text) :
    Except NameError Text :=
  match unit with
  | .utf16 => truncateUnits limit name
  | .bytes => truncateBytes cs limit name

end LexicalPath.FileName
