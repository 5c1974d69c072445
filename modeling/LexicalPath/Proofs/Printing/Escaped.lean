import LexicalPath.Printing.TextBuffer
import LexicalPath.Proofs.Text.WellFormed

/-!
# Texts in a buffer

A text is written in runs without an unpaired surrogate, and each such surrogate between them by its
number. No run is lost, since all of them can be converted, so the buffer gets what the code points
of the text give one by one.
-/

namespace LexicalPath

/-! ## Numbers of units -/

/-- The digits from `0` to `F`. -/
def hexDigit (d : Nat) : UInt8 := (ascii "0123456789ABCDEF").getD d 0

def fourHexDigits (n : Nat) : Bytes :=
  [hexDigit (n / 0x1000), hexDigit (n / 0x100 % 0x10), hexDigit (n / 0x10 % 0x10),
    hexDigit (n % 0x10)]

theorem upperByte_digitChar (d : Nat) (hd : d < 16) :
    upperByte (UInt8.ofNat d.digitChar.toNat) = hexDigit d := by
  have hall : ∀ d < 16, upperByte (UInt8.ofNat d.digitChar.toNat) = hexDigit d := by decide
  exact hall d hd

theorem toDigits_four (n : Nat) (hlo : 0x1000 ≤ n) (hhi : n < 0x10000) :
    Nat.toDigits 16 n =
      [(n / 0x1000).digitChar, (n / 0x100 % 16).digitChar, (n / 0x10 % 16).digitChar,
        (n % 16).digitChar] := by
  have hbase : 1 < 16 := by decide
  rw [Nat.toDigits_of_base_le hbase (by omega), Nat.toDigits_of_base_le hbase (by omega),
    Nat.toDigits_of_base_le hbase (by omega), Nat.toDigits_of_lt_base (by omega)]
  simp [Nat.div_div_eq_div_mul]

theorem hex4_eq (n : Nat) (hlo : 0x1000 ≤ n) (hhi : n < 0x10000) : hex4 n = fourHexDigits n := by
  unfold hex4
  rw [toDigits_four n hlo hhi]
  simp only [List.map_cons, List.map_nil]
  rw [upperByte_digitChar _ (by omega), upperByte_digitChar _ (by omega),
    upperByte_digitChar _ (by omega), upperByte_digitChar _ (by omega)]
  rfl

namespace Text

/-! ## Single code points -/

theorem escapeCodePoint_of_scalar (c : CodePoint) (h : c.isSurrogate = false) :
    escapeCodePoint c = Utf8.encodeScalar c := by
  rw [escapeCodePoint, if_neg (by simp [h])]

theorem escapeCodePoint_of_surrogate (c : CodePoint) (h : c.isSurrogate = true) :
    escapeCodePoint c = ascii "\\u" ++ fourHexDigits c := by
  have hbounds := (CodePoint.isSurrogate_iff c).mp h
  rw [escapeCodePoint, if_pos h, hex4_eq c (by omega) (by omega)]

theorem escapeCodePoint_toNat (u : CodeUnit) (h : u.isSurrogate = true) :
    escapeCodePoint u.toNat = escapeUnit u := if_pos h

/-! ## Runs -/

/-- The first unpaired surrogate parts the text in a run that can be converted, itself and the rest,
and no code point goes across. -/
theorem malformedIdx?_split (t : Text) (i : Nat) (h : t.malformedIdx? = some i) :
    ∃ (run : Text) (u : CodeUnit) (rest : Text), t = run ++ u :: rest ∧ run.length = i ∧
      run.isWellFormed = true ∧ u.isSurrogate = true ∧
      t.codePoints = run.codePoints ++ u.toNat :: rest.codePoints := by
  rw [malformedIdx?_eq, surrogateIdx?_eq_some_iff] at h
  obtain ⟨before, c, after, hpoints, rfl, hc, hbefore⟩ := h
  have hbounds := (CodePoint.isSurrogate_iff c).mp hc
  obtain ⟨u, hunits, rfl⟩ := CodePoint.toUnits_single c (by omega)
  have hrun : codePoints (ofCodePoints before) = before :=
    codePoints_ofCodePoints_of_append t [] before (u.toNat :: after) hpoints
  have hrest : codePoints (ofCodePoints after) = after :=
    codePoints_ofCodePoints_of_append t (before ++ [u.toNat]) after [] (by simp [hpoints])
  refine ⟨ofCodePoints before, u, ofCodePoints after, ?_, length_ofCodePoints before, ?_, hc, ?_⟩
  · rw [← ofCodePoints_codePoints t, hpoints, ofCodePoints_append, ofCodePoints_cons, hunits]
    rfl
  · rw [isWellFormed_iff, hrun]
    exact hbefore
  · rw [hrun, hrest, hpoints]

theorem ofText_eq_escapedByCodePoint (t : Text) (h : t.isWellFormed = true) :
    Utf8.ofText t = t.escapedByCodePoint := by
  rw [Utf8.ofText, Utf8.ofText?, if_pos h, Option.getD_some]
  rw [isWellFormed_iff] at h
  exact List.flatMap_congr fun c hc => (escapeCodePoint_of_scalar c (h c hc)).symm

theorem escapedByCodePoint_split (t run : Text) (u : CodeUnit) (rest : Text)
    (hrun : run.isWellFormed = true) (hu : u.isSurrogate = true)
    (hpoints : t.codePoints = run.codePoints ++ u.toNat :: rest.codePoints) :
    t.escapedByCodePoint = Utf8.ofText run ++ escapeUnit u ++ rest.escapedByCodePoint := by
  rw [ofText_eq_escapedByCodePoint run hrun, escapedByCodePoint, hpoints, List.flatMap_append,
    List.flatMap_cons, escapeCodePoint_toNat u hu, List.append_assoc]
  rfl

theorem escaped_eq (t : Text) : t.escaped = t.escapedByCodePoint := by
  fun_induction escaped t with
  | case1 => rfl
  | case2 u t hwhole =>
    exact ofText_eq_escapedByCodePoint _ (Option.isNone_iff_eq_none.mpr hwhole)
  | case3 u t i hmalformed ih =>
    obtain ⟨run, v, rest, hsplit, rfl, hrun, hv, hpoints⟩ := malformedIdx?_split _ i hmalformed
    have hrest : t.drop run.length = rest := by
      rw [← List.drop_succ_cons (a := u), hsplit]
      simp
    have hfirst : (List.take 1 (v :: rest)).flatMap escapeUnit = escapeUnit v := by simp
    rw [ih, hrest, hsplit, List.take_left, List.drop_left, hfirst, ← hsplit,
      escapedByCodePoint_split _ run v rest hrun hv hpoints]

end Text

namespace TextBuffer

open Text

/-- **Texts in a buffer.** A text is added to what the buffer holds, code point by code point: a
scalar value in UTF-8, and an unpaired surrogate as `\u` with its four digits. -/
theorem write_text_by_codePoint (b : TextBuffer) (t : Text) :
    (b.write (.text t)).content = b.content ++ t.codePoints.flatMap escapeCodePoint ∧
      ∀ before c after, t.codePoints = before ++ c :: after →
        (c.isScalar = true ∧ escapeCodePoint c = Utf8.encodeScalar c) ∨
          (UnpairedAt t (unitSum before) ∧ escapeCodePoint c = ascii "\\u" ++ fourHexDigits c) := by
  constructor
  · calc
      (b.write (.text t)).content = b.content ++ t.escaped := rfl
      _ = b.content ++ t.codePoints.flatMap escapeCodePoint := by rw [escaped_eq, escapedByCodePoint]
  · intro before c after hpoints
    cases hc : c.isSurrogate with
    | false =>
      have hmax : c ≤ 0x10FFFF := le_of_mem_codePoints t c (by simp [hpoints])
      exact Or.inl ⟨(CodePoint.isScalar_iff c).mpr ⟨hmax, hc⟩, escapeCodePoint_of_scalar c hc⟩
    | true =>
      have hunpaired := (unpairedAt_iff_codePoints t _).mpr ⟨before, c, after, hpoints, rfl, hc⟩
      exact Or.inr ⟨hunpaired, escapeCodePoint_of_surrogate c hc⟩

theorem write_text_by_codePoint_half :
    codePoints [0x61, 0xD83D, 0xDE00, 0xDC00] = [0x61, 0x1F600] ++ 0xDC00 :: [] ∧
      (TextBuffer.write ⟨[0x20]⟩ (.text [0x61, 0xD83D, 0xDE00, 0xDC00])).content =
        [0x20, 0x61, 0xF0, 0x9F, 0x98, 0x80, 0x5C, 0x75, 0x44, 0x43, 0x30, 0x30] ∧
      UnpairedAt [0x61, 0xD83D, 0xDE00, 0xDC00] 3 := by
  obtain ⟨hwrite, heach⟩ :=
    write_text_by_codePoint ⟨[0x20]⟩ [0x61, 0xD83D, 0xDE00, 0xDC00]
  have hpoints : codePoints [0x61, 0xD83D, 0xDE00, 0xDC00] = [0x61, 0x1F600] ++ 0xDC00 :: [] := by
    decide
  refine ⟨hpoints, hwrite.trans (by decide), ?_⟩
  rcases heach _ _ _ hpoints with ⟨hscalar, -⟩ | ⟨hunpaired, -⟩
  · exact absurd hscalar (by decide)
  · exact hunpaired

end TextBuffer

end LexicalPath
