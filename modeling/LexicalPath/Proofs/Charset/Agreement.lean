import LexicalPath.Proofs.Charset.Encoding

/-!
# Checks and encoders agree

Whether a text can be encoded, how many bytes it takes and which bytes these are is found out in
separate passes over the text. They all come to an end or all fail, and for UTF-8 they fail exactly
on the texts that the check of the units refuses.
-/

namespace LexicalPath.Charset

open Text

/-! ## The length of an encoding -/

section

variable (cs : Charset)

theorem widthSum?_isSome_iff (xs : List CodePoint) :
    (cs.widthSum? xs).isSome = true ↔ ∀ c ∈ xs, (cs.width? c).isSome = true := by
  induction xs with
  | nil => simp [widthSum?]
  | cons c xs ih =>
    rw [List.forall_mem_cons, ← ih]
    cases hc : cs.width? c <;> simp [widthSum?, hc]

theorem length_encode? (t : Text) : (cs.encode? t).map List.length = cs.encodedLength? t := by
  rw [encode?_eq]
  cases h : cs.encodedLength? t with
  | none => rfl
  | some n =>
    rw [encodedLength?_eq] at h
    exact congrArg some (cs.length_flatMap_bytes _ n h)

theorem canEncode_iff_encodedLength? (t : Text) :
    cs.canEncode t = true ↔ ∃ n, cs.encodedLength? t = some n := Option.isSome_iff_exists

theorem canEncode_iff_encode? (t : Text) :
    cs.canEncode t = true ↔ ∃ out, cs.encode? t = some out := by
  rw [canEncode, ← length_encode?, Option.isSome_map, Option.isSome_iff_exists]

end

/-! ## UTF-8 -/

theorem width?_utf8_isSome (c : CodePoint) : (utf8.width? c).isSome = c.isScalar := by
  unfold width?
  cases c.isScalar <;> rfl

theorem encodedLength?_utf8_isSome (t : Text) :
    (utf8.encodedLength? t).isSome = t.isWellFormed := by
  rw [Bool.eq_iff_iff, encodedLength?_eq, widthSum?_isSome_iff, isWellFormed_iff]
  apply forall₂_congr
  intro c hc
  rw [width?_utf8_isSome, CodePoint.isScalar_iff]
  exact and_iff_right (le_of_mem_codePoints t c hc)

theorem encode?_utf8 (t : Text) : utf8.encode? t = Utf8.ofText? t := by
  rw [encode?_eq, Utf8.ofText?, ← encodedLength?_utf8_isSome]
  cases utf8.encodedLength? t <;> rfl

theorem ofText?_isSome_iff (t : Text) :
    (Utf8.ofText? t).isSome = true ↔ t.malformedIdx? = none := by
  rw [Utf8.ofText?, isWellFormed]
  cases t.malformedIdx? <;> simp

/-- **Checks and encoders agree.** A text can be encoded exactly if it has a length in the charset
and exactly if its bytes come out, and these are then as many as the length says. As UTF-8 it comes
out the same by charset and by conversion, and unless the check finds an unpaired surrogate. What
the check finds is the first surrogate that is read. -/
theorem encoders_agree (cs : Charset) (t : Text) :
    (cs.canEncode t = true ↔ ∃ n, cs.encodedLength? t = some n) ∧
      (cs.canEncode t = true ↔ ∃ out, cs.encode? t = some out) ∧
      (∀ n, cs.encodedLength? t = some n →
        (∃ out, cs.encode? t = some out ∧ out.length = n) ∧ n ≤ cs.maxBytesPerUnit * t.length) ∧
      utf8.encode? t = Utf8.ofText? t ∧
      ((Utf8.ofText? t).isSome = true ↔ t.malformedIdx? = none) ∧
      ∀ i, t.malformedIdx? = some i ↔ ∃ before c after, t.codePoints = before ++ c :: after ∧
        unitSum before = i ∧ c.isSurrogate = true ∧ ∀ b ∈ before, b.isSurrogate = false := by
  refine ⟨cs.canEncode_iff_encodedLength? t, cs.canEncode_iff_encode? t, ?_, encode?_utf8 t,
    ofText?_isSome_iff t, ?_⟩
  · intro n hn
    have hlength := cs.length_encode? t
    rw [hn, Option.map_eq_some_iff] at hlength
    exact ⟨hlength, cs.encodedLength?_le t n hn⟩
  · intro i
    rw [malformedIdx?_eq]
    exact surrogateIdx?_eq_some_iff t.codePoints i

theorem encoders_agree_pair :
    utf8.encodedLength? [0xE4, 0xD83D, 0xDE00] = some 6 ∧
      (∃ out, utf8.encode? [0xE4, 0xD83D, 0xDE00] = some out ∧ out.length = 6) ∧
      6 ≤ utf8.maxBytesPerUnit * 3 :=
  ⟨by decide, (encoders_agree utf8 [0xE4, 0xD83D, 0xDE00]).2.2.1 6 (by decide)⟩

end LexicalPath.Charset
