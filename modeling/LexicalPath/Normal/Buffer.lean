import LexicalPath.Text.Basic

/-!
# Working buffers

A buffer has room for a fixed number of units. Every access is checked, and an index or a range
that leaves the buffer is an error of the edit.
-/

namespace LexicalPath

/-- What ends the edit of a path without a result. -/
inductive EditError where
  | outOfRange
  /-- A scan took more steps than there are units in front of it. -/
  | unfinished
  /-- The path steps out of the place that it starts from. -/
  | aboveStart
  deriving Repr, DecidableEq

abbrev Buffer := Array CodeUnit

namespace Buffer

/-- A buffer that holds the text and has room for `spare` more units. -/
def ofText (t : Text) (spare : Nat) : Buffer := t.toArray ++ Array.replicate spare CodeUnit.nul

def read (b : Buffer) (i : Int) : Except EditError CodeUnit :=
  if 0 ≤ i then
    match b[i.toNat]? with
    | some u => .ok u
    | none => .error .outOfRange
  else .error .outOfRange

def holds (b : Buffer) (i : Int) (u : CodeUnit) : Except EditError Bool :=
  (b.read i).map (· == u)

def write (b : Buffer) (i : Int) (u : CodeUnit) : Except EditError Buffer :=
  if 0 ≤ i ∧ i < b.size then .ok (b.setIfInBounds i.toNat u) else .error .outOfRange

/-- Copies `count` units from `source` on to `target` on, where the two ranges may overlap. -/
def move (b : Buffer) (source target count : Int) : Except EditError Buffer :=
  if 0 ≤ source ∧ 0 ≤ target ∧ 0 ≤ count ∧ source + count ≤ b.size ∧ target + count ≤ b.size then
    .ok (b.extract 0 target.toNat ++ b.extract source.toNat (source + count).toNat ++
      b.extract (target + count).toNat b.size)
  else .error .outOfRange

theorem size_ofText (t : Text) (spare : Nat) : (ofText t spare).size = t.length + spare := by
  simp [ofText]

theorem size_of_move {b b' : Buffer} {source target count : Int}
    (h : b.move source target count = .ok b') : b'.size = b.size := by
  unfold move at h
  split at h
  · next hb =>
    obtain ⟨hs, ht, hc, hsb, htb⟩ := hb
    obtain rfl := Except.ok.inj h
    simp only [Array.size_append, Array.size_extract]
    omega
  · cases h

theorem size_of_write {b b' : Buffer} {i : Int} {u : CodeUnit} (h : b.write i u = .ok b') :
    b'.size = b.size := by
  unfold write at h
  split at h
  · obtain rfl := Except.ok.inj h
    simp
  · cases h

/-- The last of the `count` indices from `start` on that holds `u`, read from the right. -/
def lastIndex? (b : Buffer) (u : CodeUnit) (start : Int) : Nat → Except EditError (Option Int)
  | 0 => .ok none
  | count + 1 => do
    if ← b.holds (start + count) u then return some (start + count)
    b.lastIndex? u start count

end Buffer

end LexicalPath
