import LexicalPath.FileName.Legal
import LexicalPath.FileSystem.BuiltIn
import LexicalPath.Proofs.Charset.Agreement

/-!
# Names that cannot be encoded

Where a file system counts bytes, a name that has none is taken to be as long as the greatest limit.
So it is refused under every limit but that one.
-/

namespace LexicalPath

open Text

/-! ## What a charset can encode -/

namespace Charset

variable (cs : Charset)

theorem canEncode_iff_codePoints (t : Text) :
    cs.canEncode t = true ↔ (∀ i, ¬ UnpairedAt t i) ∧ ∀ c ∈ t.codePoints, c < cs.codeLimit := by
  unfold canEncode
  rw [encodedLength?_eq, widthSum?_isSome_iff, ← isWellFormed_iff_paired, isWellFormed_iff,
    ← forall₂_and]
  apply forall₂_congr
  intro c _
  exact cs.width?_isSome_iff c

theorem canEncode_eq_false_iff (t : Text) :
    cs.canEncode t = false ↔ cs.encodedLength? t = none := by simp [canEncode]

end Charset

/-! ## Legal names -/

namespace FileName

section

variable (cs : Charset) (name : Text)

theorem fits_bytes_of_encodable (limit : Int) (h : cs.canEncode name = true) :
    fits .bytes cs limit name = true ↔
      ∃ n : Nat, cs.encodedLength? name = some n ∧ n ≤ limit := by
  obtain ⟨n, hn⟩ := (cs.canEncode_iff_encodedLength? name).mp h
  unfold fits measure
  simp [hn]

theorem fits_bytes_of_unencodable (limit : Int) (h : cs.canEncode name = false) :
    fits .bytes cs limit name = true ↔ unmeasurable ≤ limit := by
  have hnone : cs.encodedLength? name = none := (cs.canEncode_eq_false_iff name).mp h
  unfold fits measure
  simp [hnone]

theorem fits_bytes_lawful_iff (limit : Int) :
    (fits .bytes cs limit name = true ↔
        ∃ n : Nat, cs.encodedLength? name = some n ∧ n ≤ limit) ↔
      (limit < unmeasurable ∨ cs.canEncode name = true) := by
  cases h : cs.canEncode name with
  | true => simp [fits_bytes_of_encodable cs name limit h]
  | false =>
    have hnone : cs.encodedLength? name = none := (cs.canEncode_eq_false_iff name).mp h
    simp [fits_bytes_of_unencodable cs name limit h, hnone]

theorem isLegal_of_unencodable (fs : Profile) (hunit : fs.lengthUnit = .bytes)
    (h : cs.canEncode name = false) :
    isLegal fs cs name = true ↔
      unmeasurable ≤ fs.maxNameLength ∧ fs.isReserved name = false ∧ hasIllegal fs name = false := by
  have hne : name.isEmpty = false := by
    rw [← Bool.not_eq_true, List.isEmpty_iff]
    rintro rfl
    cases h
  unfold isLegal
  simp [hunit, hne, fits_bytes_of_unencodable cs name _ h, and_assoc]

/-- **Names that cannot be encoded.** A charset can encode the texts whose surrogates are paired and
whose code points it has. A name fits a number of bytes exactly if it can be encoded in so many, and
a legal name can be encoded, as long as the limit is not the greatest one. Under that one a name
that cannot be encoded fits, and it is legal unless it is reserved or holds an illegal code point. -/
theorem unencodable_refused_iff :
    (cs.canEncode name = true ↔
        (∀ i, ¬ UnpairedAt name i) ∧ ∀ c ∈ codePoints name, c < cs.codeLimit) ∧
      (∀ limit : Int,
        (fits .bytes cs limit name = true ↔
            ∃ n : Nat, cs.encodedLength? name = some n ∧ n ≤ limit) ↔
          (limit < unmeasurable ∨ cs.canEncode name = true)) ∧
      ∀ fs : Profile, fs.lengthUnit = .bytes →
        ((isLegal fs cs name = true → cs.canEncode name = true) ↔
          (fs.maxNameLength < unmeasurable ∨ cs.canEncode name = true ∨
            fs.isReserved name = true ∨ hasIllegal fs name = true)) := by
  refine ⟨cs.canEncode_iff_codePoints name, fits_bytes_lawful_iff cs name, ?_⟩
  intro fs hunit
  cases h : cs.canEncode name with
  | true => simp
  | false =>
    rw [isLegal_of_unencodable cs name fs hunit h, ← Int.not_le]
    cases fs.isReserved name <;> cases hasIllegal fs name <;> simp

end

theorem unencodable_refused_linux :
    Profile.linux.lengthUnit = .bytes ∧ Profile.linux.maxNameLength < unmeasurable ∧
      (isLegal Profile.linux .utf8 [0x61, 0xD800] = true →
        Charset.canEncode .utf8 [0x61, 0xD800] = true) := by
  have hunit : Profile.linux.lengthUnit = .bytes := rfl
  have hlimit : Profile.linux.maxNameLength < unmeasurable := by decide
  have hlaw := (unencodable_refused_iff .utf8 [0x61, 0xD800]).2.2 Profile.linux hunit
  exact ⟨hunit, hlimit, hlaw.mpr (Or.inl hlimit)⟩

/-- The lone half of a pair fits the greatest limit, and is legal where names may be that long. -/
theorem unencodable_fits_greatest :
    (¬ ∀ (cs : Charset) (limit : Int) (name : Text), -2147483648 ≤ limit → limit ≤ 2147483647 →
        (fits .bytes cs limit name = true ↔
          ∃ n : Nat, cs.encodedLength? name = some n ∧ n ≤ limit)) ∧
      ¬ ∀ (fs : Profile) (cs : Charset) (name : Text), fs.lengthUnit = .bytes →
        fs.maxNameLength ≤ 2147483647 → isLegal fs cs name = true → cs.canEncode name = true := by
  constructor
  · intro h
    have hfits := h .utf8 2147483647 [0x61, 0xD800] (by decide) (by decide)
    obtain ⟨n, hn, -⟩ := hfits.mp (by decide)
    cases hn
  · intro h
    have hlegal := h { Profile.linux with maxNameLength := 2147483647 } .utf8 [0x61, 0xD800] rfl
      (by decide) (by decide)
    cases hlegal

end FileName

end LexicalPath
