import LexicalPath.Proofs.Charset.Agreement
import LexicalPath.Proofs.Utf8.Grammar

/-!
# Conversion between UTF-8 and UTF-16

The two conversions are inverse to each other. One takes the well-formed texts and the other one
the valid byte strings, and neither gives more than the room that its input asks for.
-/

namespace LexicalPath.Utf8

open Text

/-! ## Round trips -/

theorem ofText?_eq_some_iff (t : Text) (s : Bytes) :
    ofText? t = some s ↔ t.isWellFormed = true ∧ t.codePoints.flatMap encodeScalar = s := by
  rw [ofText?, Option.ite_none_right_eq_some, Option.some.injEq]

theorem toText?_eq_some_iff (s : Bytes) (t : Text) :
    toText? s = some t ↔ ∃ cs, Encodes cs s ∧ ofCodePoints cs = t := by
  rw [toText?, Option.map_eq_some_iff]
  simp only [decode?_eq_some_iff]

theorem ofText?_iff_toText? (t : Text) (s : Bytes) : ofText? t = some s ↔ toText? s = some t := by
  rw [ofText?_eq_some_iff, toText?_eq_some_iff]
  constructor
  · rintro ⟨ht, hs⟩
    exact ⟨t.codePoints, ⟨isScalar_of_mem_codePoints t ht, hs⟩, ofCodePoints_codePoints t⟩
  · rintro ⟨cs, ⟨hcs, hs⟩, rfl⟩
    rw [codePoints_ofCodePoints_of_isScalar cs hcs]
    exact ⟨isWellFormed_ofCodePoints cs hcs, hs⟩

theorem ofText?_isSome_iff_paired (t : Text) :
    (ofText? t).isSome = true ↔ ∀ i, ¬ UnpairedAt t i := by
  rw [← isWellFormed_iff_paired, Option.isSome_iff_exists]
  simp only [ofText?_eq_some_iff, exists_and_left, exists_eq', and_true]

theorem toText?_isSome_iff_valid (s : Bytes) (hs : ¬ HoldsSurrogate s) :
    (toText? s).isSome = true ↔ Valid s := by
  rw [toText?, Option.isSome_map]
  exact decode?_isSome_iff_valid s hs

theorem spells_of_ofText? (t : Text) (s : Bytes) (h : ofText? t = some s) :
    Charset.Spells .utf8 t.codePoints s := by
  have hlength := Charset.length_encode? .utf8 t
  rw [Charset.encode?_utf8, h, Charset.encodedLength?_eq] at hlength
  have hbytes := ((ofText?_eq_some_iff t s).mp h).2
  rw [← hbytes]
  exact Charset.spells_flatMap_bytes .utf8 t.codePoints _ hlength.symm

/-! ## What is returned -/

theorem ofText_of_ofText? (t : Text) (s : Bytes) (h : ofText? t = some s) : ofText t = s := by
  rw [ofText, h]
  rfl

theorem toText_of_toText? (s : Bytes) (t : Text) (h : toText? s = some t) : toText s = t := by
  rw [toText, h]
  rfl

theorem toText?_ofText (t : Text) (h : ∀ i, ¬ UnpairedAt t i) : toText? (ofText t) = some t := by
  obtain ⟨s, hs⟩ := Option.isSome_iff_exists.mp ((ofText?_isSome_iff_paired t).mpr h)
  rw [ofText_of_ofText? t s hs]
  exact (ofText?_iff_toText? t s).mp hs

theorem ofText?_toText (s : Bytes) (hs : ¬ HoldsSurrogate s) (h : Valid s) :
    ofText? (toText s) = some s := by
  obtain ⟨t, ht⟩ := Option.isSome_iff_exists.mp ((toText?_isSome_iff_valid s hs).mpr h)
  rw [toText_of_toText? s t ht]
  exact (ofText?_iff_toText? t s).mpr ht

/-! ## Room -/

theorem length_le_of_ofText? (t : Text) (s : Bytes) (h : ofText? t = some s) :
    s.length ≤ 3 * t.length := by
  have hlength := Charset.length_encode? .utf8 t
  rw [Charset.encode?_utf8, h] at hlength
  exact Charset.encodedLength?_le .utf8 t _ hlength.symm

theorem unitCount_le_length_encodeScalar (c : Nat) :
    CodePoint.unitCount c ≤ (encodeScalar c).length := by
  rw [Charset.length_encodeScalar]
  unfold CodePoint.unitCount CodePoint
  split_ifs <;> omega

theorem unitSum_le_length_flatMap (cs : List CodePoint) :
    unitSum cs ≤ (cs.flatMap encodeScalar).length := by
  induction cs with
  | nil => exact Nat.zero_le _
  | cons c cs ih =>
    rw [unitSum_cons, List.flatMap_cons, List.length_append]
    exact Nat.add_le_add (unitCount_le_length_encodeScalar c) ih

theorem length_le_of_toText? (s : Bytes) (t : Text) (h : toText? s = some t) :
    t.length ≤ s.length := by
  obtain ⟨cs, ⟨-, rfl⟩, rfl⟩ := (toText?_eq_some_iff s t).mp h
  rw [length_ofCodePoints]
  exact unitSum_le_length_flatMap cs

/-- **Conversions.** A text can be converted exactly if no surrogate in it is unpaired, and bytes
that hold no surrogate exactly if they are valid. What is returned then is the UTF-8 form of the
text, and the conversion back of it returns what there was before. A text takes at most three bytes
for each unit, and no part of a byte string gives more units than the string has bytes. A conversion
that fails returns nothing. -/
theorem conversions_inverse (t : Text) (s : Bytes) :
    ((ofText? t).isSome = true ↔ ∀ i, ¬ UnpairedAt t i) ∧
      (¬ HoldsSurrogate s → ((toText? s).isSome = true ↔ Valid s)) ∧
      (ofText? t = some s ↔ toText? s = some t) ∧
      (ofText? t = some s →
        Charset.Spells .utf8 t.codePoints s ∧ ofText t = s ∧ toText s = t) ∧
      ((∀ i, ¬ UnpairedAt t i) → toText? (ofText t) = some t ∧ toText (ofText t) = t) ∧
      (¬ HoldsSurrogate s → Valid s → ofText? (toText s) = some s ∧ ofText (toText s) = s) ∧
      (ofText? t = none → ofText t = []) ∧
      (toText? s = none → toText s = []) ∧
      (ofText? t = some s → s.length ≤ 3 * t.length) ∧
      ∀ front, front <+: s → toText? front = some t → t.length ≤ s.length := by
  refine ⟨ofText?_isSome_iff_paired t, toText?_isSome_iff_valid s, ofText?_iff_toText? t s, ?_, ?_,
    ?_, ?_, ?_, length_le_of_ofText? t s, ?_⟩
  · intro h
    exact ⟨spells_of_ofText? t s h, ofText_of_ofText? t s h,
      toText_of_toText? s t ((ofText?_iff_toText? t s).mp h)⟩
  · intro h
    have hback := toText?_ofText t h
    exact ⟨hback, toText_of_toText? _ t hback⟩
  · intro hs h
    have hback := ofText?_toText s hs h
    exact ⟨hback, ofText_of_ofText? _ s hback⟩
  · intro h
    rw [ofText, h]
    rfl
  · intro h
    rw [toText, h]
    rfl
  · intro front hfront ht
    exact Nat.le_trans (length_le_of_toText? front t ht) hfront.length_le

theorem conversions_inverse_signs :
    ¬ HoldsSurrogate [0xE2, 0x82, 0xAC, 0xF0, 0x9F, 0x98, 0x80] ∧
      Valid [0xE2, 0x82, 0xAC, 0xF0, 0x9F, 0x98, 0x80] ∧
      ofText [0x20AC, 0xD83D, 0xDE00] = [0xE2, 0x82, 0xAC, 0xF0, 0x9F, 0x98, 0x80] ∧
      toText? [0xE2, 0x82, 0xAC, 0xF0, 0x9F, 0x98, 0x80] = some [0x20AC, 0xD83D, 0xDE00] ∧
      ofText (toText [0xE2, 0x82, 0xAC, 0xF0, 0x9F, 0x98, 0x80]) =
        [0xE2, 0x82, 0xAC, 0xF0, 0x9F, 0x98, 0x80] ∧
      7 ≤ 3 * 3 ∧ 3 ≤ 7 ∧ ofText? [0xD83D] = none ∧ ofText [0xD83D] = [] ∧
      toText? [0xFF] = none ∧ toText [0xFF] = [] := by
  have hsurrogate : ¬ HoldsSurrogate [0xE2, 0x82, 0xAC, 0xF0, 0x9F, 0x98, 0x80] := by
    rintro ⟨front, b, c, back, h, -⟩
    have hmem : (0xED : UInt8) ∈ front ++ 0xED :: b :: c :: back := by simp
    rw [← h] at hmem
    exact absurd hmem (by decide)
  have hbytes :
      ofText? [0x20AC, 0xD83D, 0xDE00] = some [0xE2, 0x82, 0xAC, 0xF0, 0x9F, 0x98, 0x80] := by
    decide +kernel
  have hlone : ofText? [0xD83D] = none := by decide
  have hinvalid : toText? [0xFF] = none := by decide
  obtain ⟨-, hvalid, hinverse, hreturned, -, hback, -, -, hroom, hunits⟩ :=
    conversions_inverse [0x20AC, 0xD83D, 0xDE00] [0xE2, 0x82, 0xAC, 0xF0, 0x9F, 0x98, 0x80]
  obtain ⟨-, -, -, -, -, -, hnoBytes, hnoText, -, -⟩ := conversions_inverse [0xD83D] [0xFF]
  have htext := hinverse.mp hbytes
  have hs := (hvalid hsurrogate).mp (Option.isSome_of_eq_some htext)
  exact ⟨hsurrogate, hs, (hreturned hbytes).2.1, htext, (hback hsurrogate hs).2, hroom hbytes,
    hunits _ List.prefix_rfl htext, hlone, hnoBytes hlone, hinvalid, hnoText hinvalid⟩

end LexicalPath.Utf8
