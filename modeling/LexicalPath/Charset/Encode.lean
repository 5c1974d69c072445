import LexicalPath.Charset.Lookup

/-!
# Encoding texts

A text can be encoded bit by bit, each time into the room that there is. A code point is written
whole or not at all. The length of a text is found before and apart from its bytes, and each of the
two loops looks for unpaired surrogates by itself. Sizes are plain numbers here: no text is taken to
be so long that the sum of its bytes is too much for a machine integer.
-/

namespace LexicalPath.Charset

/-! ## Code points -/

/-- The greatest number of bytes that one code unit can take. -/
def maxBytesPerUnit : Charset → Nat
  | utf8 => 3
  | usAscii => 1
  | latin1 => 1
  | utf16LE => 2
  | utf16BE => 2

/-- The number of bytes that a code point takes, if the charset has it. Surrogates and values above
U+10FFFF are in no charset. -/
def width? (cs : Charset) (c : CodePoint) : Option Nat :=
  if !c.isScalar then none
  else match cs with
    | utf8 => some (if c < 0x80 then 1 else if c < 0x800 then 2 else if c < 0x10000 then 3 else 4)
    | usAscii => if c < 0x80 then some 1 else none
    | latin1 => if c < 0x100 then some 1 else none
    | utf16LE => some (if c < 0x10000 then 2 else 4)
    | utf16BE => some (if c < 0x10000 then 2 else 4)

/-! ## Length -/

/-- The number of bytes that a text takes, unless a surrogate of it is unpaired or some code point
is not in the charset. -/
def encodedLength? (cs : Charset) : Text → Option Nat
  | [] => some 0
  | [u] => if u.isUnpaired none then none else cs.width? u.toNat
  | u :: v :: t =>
    if u.isUnpaired (some v) then none
    else if u.isHighSurrogate && v.isLowSurrogate then
      (cs.width? (CodePoint.ofPair u v)).bind fun n => (cs.encodedLength? t).map (n + ·)
    else (cs.width? u.toNat).bind fun n => (cs.encodedLength? (v :: t)).map (n + ·)

def canEncode (cs : Charset) (t : Text) : Bool := (cs.encodedLength? t).isSome

/-! ## Encoding into limited room -/

inductive Status where
  | underflow
  /-- The next code point takes more room than is left. -/
  | overflow
  /-- The next unit is an unpaired surrogate. -/
  | malformed
  /-- The next code point is not in the charset. -/
  | unmappable
  deriving Repr, DecidableEq

def lowByte (u : CodeUnit) : UInt8 := UInt8.ofNat u.toNat

def highByte (u : CodeUnit) : UInt8 := UInt8.ofNat (u.toNat / 0x100)

/-- The bytes of a code point, which is given by its units too, or what stops it from being written
into `room` bytes. -/
def write (cs : Charset) (room : Nat) (c : CodePoint) (units : Text) : Except Status Bytes :=
  match cs.width? c with
  | none => .error .unmappable
  | some n =>
    if room < n then .error .overflow
    else match cs with
      | utf8 =>
        match Utf8.ofTextWithin? n units with
        | none => .error .malformed
        | some s => if s.length = n then .ok s else .error .malformed
      | usAscii | latin1 => .ok [UInt8.ofNat c]
      | utf16LE => .ok (units.flatMap fun u => [lowByte u, highByte u])
      | utf16BE => .ok (units.flatMap fun u => [highByte u, lowByte u])

structure Run where
  written : Bytes
  consumed : Nat
  status : Status
  deriving Repr, DecidableEq

def Run.stopped (status : Status) : Run := ⟨[], 0, status⟩

def Run.prepend (bytes : Bytes) (units : Nat) (r : Run) : Run :=
  { r with written := bytes ++ r.written, consumed := units + r.consumed }

/-- Goes on behind the `units` units of a code point if that could be written. -/
def Run.following (units : Nat) (rest : Bytes → Run) : Except Status Bytes → Run
  | .ok s => (rest s).prepend s units
  | .error status => stopped status

/-- Encodes as much of a text as fits into `room` bytes. -/
def encodeInto (cs : Charset) (room : Nat) : Text → Run
  | [] => .stopped .underflow
  | [u] =>
    if u.isHighSurrogate then .stopped .malformed
    else if u.isLowSurrogate then .stopped .malformed
    else .following 1 (fun _ => .stopped .underflow) (cs.write room u.toNat [u])
  | u :: v :: t =>
    if u.isHighSurrogate then
      if v.isLowSurrogate then
        .following 2 (fun s => cs.encodeInto (room - s.length) t)
          (cs.write room (CodePoint.ofPair u v) [u, v])
      else .stopped .malformed
    else if u.isLowSurrogate then .stopped .malformed
    else
      .following 1 (fun s => cs.encodeInto (room - s.length) (v :: t)) (cs.write room u.toNat [u])

/-- A call of the encoder, seen from the start of the text. -/
structure Step where
  written : Bytes
  next : Nat
  status : Status
  deriving Repr, DecidableEq

/-- Encodes a text from the unit at `start` on, with fresh room for every call. -/
def encodeSteps (cs : Charset) (t : Text) (start : Nat) : List Nat → List Step
  | [] => []
  | room :: rooms =>
    let r := cs.encodeInto room (t.drop start)
    ⟨r.written, start + r.consumed, r.status⟩ :: cs.encodeSteps t (start + r.consumed) rooms

/-! ## Encoding as a whole -/

/-- The bytes of a text, or nothing if some code point of it is not in the charset. -/
def encode? (cs : Charset) (t : Text) : Option Bytes :=
  (cs.encodedLength? t).bind fun n =>
    let r := cs.encodeInto n t
    if r.status = .underflow then some r.written else none

end LexicalPath.Charset
