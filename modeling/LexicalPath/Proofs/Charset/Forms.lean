import LexicalPath.Charset.Encode
import LexicalPath.Proofs.Text.CodePoints
import LexicalPath.Proofs.Utf8.Grammar

/-!
# The bytes of code points

`Codes` says by the values of the bytes alone which bytes stand for a code point in a charset. No
code point has two such forms, and it has one exactly if it has a width, which is their number.
-/

namespace LexicalPath.Charset

/-! ## Widths -/

/-- The charset has the scalar values below this one. -/
def codeLimit : Charset → Nat
  | usAscii => 0x80
  | latin1 => 0x100
  | utf8 | utf16LE | utf16BE => 0x110000

theorem isScalar_of_width? (cs : Charset) (c : CodePoint) (n : Nat) (h : cs.width? c = some n) :
    c.isScalar = true := by
  unfold width? at h
  split at h
  · cases h
  · next hc => simpa using hc

theorem width?_surrogate (cs : Charset) (c : CodePoint) (h : c.isSurrogate = true) :
    cs.width? c = none := by
  simp [width?, CodePoint.isScalar, h]

theorem width?_bounds (cs : Charset) (c : CodePoint) (n : Nat) (h : cs.width? c = some n) :
    1 ≤ n ∧ n ≤ 4 ∧ n ≤ cs.maxBytesPerUnit * c.unitCount := by
  unfold width? at h
  unfold CodePoint.unitCount maxBytesPerUnit
  unfold CodePoint at *
  grind

theorem width?_isSome_iff (cs : Charset) (c : CodePoint) :
    (cs.width? c).isSome = true ↔ c.isSurrogate = false ∧ c < cs.codeLimit := by
  have hscalar := CodePoint.isScalar_iff_ranges c
  have hsurrogate := CodePoint.isSurrogate_iff c
  rw [← Bool.not_eq_true, hsurrogate]
  unfold width?
  by_cases h : c.isScalar = true
  · rw [hscalar] at h
    unfold CodePoint at *
    cases cs <;> simp [codeLimit, hscalar.mpr h] <;> omega
  · have hlimit : cs.codeLimit ≤ 0x110000 := by cases cs <;> decide
    simp only [h, Bool.not_false, if_true, Option.isSome_none, Bool.false_eq_true, false_iff]
    rw [hscalar] at h
    unfold CodePoint at *
    omega

/-! ## Forms -/

/-- The number of two bytes, the first of which counts for more. -/
def word (high low : UInt8) : Nat := 0x100 * high.toNat + low.toNat

/-- A code point in UTF-16, each unit of it by its high and its low byte. -/
inductive Words : CodePoint → List (UInt8 × UInt8) → Prop where
  | single (a b : UInt8) (h : word a b < 0xD800 ∨ 0xDFFF < word a b) : Words (word a b) [(a, b)]
  | pair (a b c d : UInt8) (hhigh : 0xD800 ≤ word a b ∧ word a b ≤ 0xDBFF)
      (hlow : 0xDC00 ≤ word c d ∧ word c d ≤ 0xDFFF) :
      Words (0x10000 + (word a b - 0xD800) * 0x400 + (word c d - 0xDC00)) [(a, b), (c, d)]

/-- The bytes that stand for a code point in a charset. -/
inductive Codes : Charset → CodePoint → Bytes → Prop where
  | utf8 (s : Bytes) (hs : Utf8.Sequence s)
      (hvalue : CodePoint.isSurrogate (Utf8.value s) = false) : Codes .utf8 (Utf8.value s) s
  | usAscii (b : UInt8) (hb : b.toNat < 0x80) : Codes .usAscii b.toNat [b]
  | latin1 (b : UInt8) : Codes .latin1 b.toNat [b]
  | utf16LE (c : CodePoint) (words : List (UInt8 × UInt8)) (h : Words c words) :
      Codes .utf16LE c (words.flatMap fun w => [w.2, w.1])
  | utf16BE (c : CodePoint) (words : List (UInt8 × UInt8)) (h : Words c words) :
      Codes .utf16BE c (words.flatMap fun w => [w.1, w.2])

/-- Bytes that stand for a row of code points. -/
inductive Spells (cs : Charset) : List CodePoint → Bytes → Prop where
  | nil : Spells cs [] []
  | cons (c : CodePoint) (s : Bytes) (xs : List CodePoint) (rest : Bytes) (hc : Codes cs c s)
      (hrest : Spells cs xs rest) : Spells cs (c :: xs) (s ++ rest)

/-- The form of a code point that the charset has. -/
def bytes (cs : Charset) (c : CodePoint) : Bytes :=
  match cs with
  | utf8 => Utf8.encodeScalar c
  | usAscii | latin1 => [UInt8.ofNat c]
  | utf16LE => c.toUnits.flatMap fun u => [lowByte u, highByte u]
  | utf16BE => c.toUnits.flatMap fun u => [highByte u, lowByte u]

/-! ## UTF-16 -/

theorem word_bytes (u : CodeUnit) : word (highByte u) (lowByte u) = u.toNat := by
  unfold word highByte lowByte
  rw [UInt8.toNat_ofNat', UInt8.toNat_ofNat']
  have := u.toNat_lt
  omega

theorem exists_unit (a b : UInt8) :
    ∃ u : CodeUnit, u.toNat = word a b ∧ (highByte u, lowByte u) = (a, b) := by
  have ha := a.toNat_lt
  have hb := b.toNat_lt
  have hu : (UInt16.ofNat (word a b)).toNat = word a b := by
    rw [UInt16.toNat_ofNat']
    unfold word
    omega
  refine ⟨_, hu, ?_⟩
  unfold highByte lowByte
  rw [hu, Prod.mk.injEq, ← UInt8.toNat_inj, ← UInt8.toNat_inj, UInt8.toNat_ofNat',
    UInt8.toNat_ofNat']
  unfold word
  omega

theorem words_iff (c : Nat) (words : List (UInt8 × UInt8)) :
    Words c words ↔ CodePoint.isScalar c = true ∧
      (CodePoint.toUnits c).map (fun u => (highByte u, lowByte u)) = words := by
  constructor
  · rintro (⟨a, b, h⟩ | ⟨a, b, c, d, hhigh, hlow⟩)
    · obtain ⟨u, hu, hbytes⟩ := exists_unit a b
      rw [← hu] at h ⊢
      have := u.toNat_lt
      refine ⟨(CodePoint.isScalar_iff_ranges _).mpr (by omega), ?_⟩
      rw [CodePoint.toUnits_toNat, List.map_singleton, hbytes]
    · obtain ⟨u, hu, hbytes⟩ := exists_unit a b
      obtain ⟨v, hv, hbytes'⟩ := exists_unit c d
      rw [← hu, ← CodeUnit.isHighSurrogate_iff] at hhigh
      rw [← hv, ← CodeUnit.isLowSurrogate_iff] at hlow
      rw [← hu, ← hv]
      refine ⟨(CodePoint.isScalar_iff _).mpr ⟨(CodePoint.ofPair_bounds u v hhigh hlow).2,
        CodePoint.isSurrogate_ofPair u v hhigh hlow⟩, ?_⟩
      have hunits := CodePoint.toUnits_ofPair u v hhigh hlow
      unfold CodePoint.ofPair at hunits
      rw [hunits, List.map_cons, List.map_singleton, hbytes, hbytes']
  · rintro ⟨hscalar, rfl⟩
    rw [CodePoint.isScalar_iff_ranges] at hscalar
    by_cases hc : c < 0x10000
    · obtain ⟨u, hunits, rfl⟩ := CodePoint.toUnits_single c hc
      have hsingle := Words.single (highByte u) (lowByte u)
      rw [word_bytes] at hsingle
      rw [hunits]
      exact hsingle (by omega)
    · obtain ⟨u, v, hunits, hu, hv, rfl⟩ := CodePoint.toUnits_pair c (by omega) (by omega)
      have hpair := Words.pair (highByte u) (lowByte u) (highByte v) (lowByte v)
      rw [word_bytes, word_bytes] at hpair
      rw [hunits]
      exact hpair ((CodeUnit.isHighSurrogate_iff u).mp hu) ((CodeUnit.isLowSurrogate_iff v).mp hv)

/-! ## All charsets -/

theorem codes_utf8_iff (c : CodePoint) (s : Bytes) :
    Codes .utf8 c s ↔ c.isScalar = true ∧ Utf8.encodeScalar c = s := by
  constructor
  · rintro ⟨s, hs, hvalue⟩
    obtain ⟨hmax, hbytes⟩ := Utf8.encodeScalar_value s hs
    exact ⟨(CodePoint.isScalar_iff _).mpr ⟨hmax, hvalue⟩, hbytes⟩
  · rintro ⟨hscalar, rfl⟩
    obtain ⟨hmax, hsurrogate⟩ := (CodePoint.isScalar_iff c).mp hscalar
    have hform := Codes.utf8 (Utf8.encodeScalar c) (Utf8.sequence_encodeScalar c hmax)
    rw [Utf8.value_encodeScalar c hmax] at hform
    exact hform hsurrogate

theorem singleton_byte_iff (limit : Nat) (hlimit : limit ≤ 0x100) (c : Nat) (s : Bytes) :
    (∃ b : UInt8, b.toNat < limit ∧ b.toNat = c ∧ [b] = s) ↔ c < limit ∧ [UInt8.ofNat c] = s := by
  constructor
  · rintro ⟨b, hb, rfl, rfl⟩
    rw [UInt8.ofNat_toNat]
    exact ⟨hb, rfl⟩
  · rintro ⟨hc, rfl⟩
    have hb : (UInt8.ofNat c).toNat = c := Utf8.toNat_byte c (Nat.lt_of_lt_of_le hc hlimit)
    exact ⟨UInt8.ofNat c, by rwa [hb], hb, rfl⟩

theorem codes_usAscii_iff (c : CodePoint) (s : Bytes) :
    Codes .usAscii c s ↔ c < 0x80 ∧ [UInt8.ofNat c] = s := by
  rw [← singleton_byte_iff 0x80 (by decide)]
  constructor
  · intro h
    cases h with
    | usAscii b hb => exact ⟨b, hb, rfl, rfl⟩
  · rintro ⟨b, hb, rfl, rfl⟩
    exact .usAscii b hb

theorem codes_latin1_iff (c : CodePoint) (s : Bytes) :
    Codes .latin1 c s ↔ c < 0x100 ∧ [UInt8.ofNat c] = s := by
  rw [← singleton_byte_iff 0x100 (by decide)]
  constructor
  · intro h
    cases h with
    | latin1 b => exact ⟨b, b.toNat_lt, rfl, rfl⟩
  · rintro ⟨b, -, rfl, rfl⟩
    exact .latin1 b

theorem codes_utf16_iff (c : CodePoint) (s : Bytes) (f : UInt8 × UInt8 → Bytes) :
    (∃ words, Words c words ∧ words.flatMap f = s) ↔
      c.isScalar = true ∧ (c.toUnits.flatMap fun u => f (highByte u, lowByte u)) = s := by
  simp only [words_iff, and_assoc, exists_and_left, exists_eq_left', List.flatMap_map]

theorem isScalar_iff_lt (c : Nat) :
    CodePoint.isScalar c = true ↔ CodePoint.isSurrogate c = false ∧ c < 0x110000 := by
  rw [CodePoint.isScalar_iff, and_comm, Nat.lt_succ_iff]

/-- A code point has a form exactly if it has a width, and then it has only the one. -/
theorem codes_iff (cs : Charset) (c : CodePoint) (s : Bytes) :
    Codes cs c s ↔ (cs.width? c).isSome = true ∧ cs.bytes c = s := by
  have hsingle (limit : Nat) (hlimit : limit ≤ 0x100) :
      c < limit ↔ c.isSurrogate = false ∧ c < limit := by
    rw [← Bool.not_eq_true, CodePoint.isSurrogate_iff]
    unfold CodePoint at *
    omega
  rw [width?_isSome_iff]
  cases cs with
  | utf8 =>
    rw [codes_utf8_iff, isScalar_iff_lt]
    rfl
  | usAscii =>
    rw [codes_usAscii_iff, hsingle 0x80 (by decide)]
    rfl
  | latin1 =>
    rw [codes_latin1_iff, hsingle 0x100 (by decide)]
    rfl
  | utf16LE =>
    rw [codeLimit, ← isScalar_iff_lt, bytes, ← codes_utf16_iff c s fun w => [w.2, w.1]]
    constructor
    · intro h
      cases h with
      | utf16LE _ words h => exact ⟨words, h, rfl⟩
    · rintro ⟨words, h, rfl⟩
      exact .utf16LE c words h
  | utf16BE =>
    rw [codeLimit, ← isScalar_iff_lt, bytes, ← codes_utf16_iff c s fun w => [w.1, w.2]]
    constructor
    · intro h
      cases h with
      | utf16BE _ words h => exact ⟨words, h, rfl⟩
    · rintro ⟨words, h, rfl⟩
      exact .utf16BE c words h

end LexicalPath.Charset
