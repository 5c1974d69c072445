import LexicalPath.Proofs.FileName.Truncate

/-!
# The worst case of truncation

A name with few units fits whatever they are, so truncation by bytes does not count them. How few
they have to be is a quotient that is rounded toward zero, and so a limit just below zero counts as
zero: the empty name gets through where even no bytes are too many.
-/

namespace LexicalPath

theorem Charset.maxBytesPerUnit_pos (cs : Charset) : 0 < cs.maxBytesPerUnit := by
  cases cs <;> decide

namespace FileName

section

variable (cs : Charset) (limit : Int) (name : Text)

/-- Truncation by bytes that counts the bytes of every name. -/
def truncateCounted : Except NameError Text :=
  match cs.encodedLength? name, cs.encodedLength? (extension name) with
  | some length, some extLength =>
    if length ≤ limit then .ok name
    else if limit < extLength then
      .error (.extensionTooLong (extension name) extLength limit .bytes)
    else (cutBytes cs (base name) (limit - extLength).toNat).map (· ++ extension name)
  | _, _ => .error (.unencodable cs)

/-- The limit is below zero, and what is left of it for a unit is zero. -/
def RoundsToZero : Prop := limit < 0 ∧ -(cs.maxBytesPerUnit : Int) < limit

instance : Decidable (RoundsToZero cs limit) := inferInstanceAs (Decidable (_ ∧ _))

/-! ## Few units -/

theorem few_units_of_neg_iff (hneg : limit < 0) :
    (name.length : Int) ≤ limit.tdiv cs.maxBytesPerUnit ↔ name = [] ∧ RoundsToZero cs limit := by
  have hpos : (0 : Int) < cs.maxBytesPerUnit := mod_cast cs.maxBytesPerUnit_pos
  have hquotient : limit.tdiv cs.maxBytesPerUnit = -(-limit / cs.maxBytesPerUnit) := by
    rw [← Int.tdiv_eq_ediv_of_nonneg (by omega), Int.neg_tdiv, Int.neg_neg]
  have hnonneg : 0 ≤ -limit / (cs.maxBytesPerUnit : Int) :=
    Int.ediv_nonneg (by omega) (Int.le_of_lt hpos)
  have hzero : -limit / (cs.maxBytesPerUnit : Int) < 1 ↔ -limit < cs.maxBytesPerUnit := by
    rw [Int.ediv_lt_iff_lt_mul hpos, Int.one_mul]
  rw [hquotient, ← List.length_eq_zero_iff]
  unfold RoundsToZero
  omega

theorem fits_of_few_units_of_not_rounded (n : Nat) (hn : cs.encodedLength? name = some n)
    (hround : ¬ (name = [] ∧ RoundsToZero cs limit))
    (hfew : (name.length : Int) ≤ limit.tdiv cs.maxBytesPerUnit) : (n : Int) ≤ limit := by
  rcases Int.lt_or_le limit 0 with hneg | h0
  · exact absurd ((few_units_of_neg_iff cs limit name hneg).mp hfew) hround
  · exact fits_of_few_units cs limit name n h0 hn hfew

/-! ## Names that are counted -/

theorem truncateCounted_eq (n e : Nat) (hn : cs.encodedLength? name = some n)
    (he : cs.encodedLength? (extension name) = some e) :
    truncateCounted cs limit name =
      if (n : Int) ≤ limit then .ok name
      else if limit < e then .error (.extensionTooLong (extension name) e limit .bytes)
      else (cutBytes cs (base name) (limit - e).toNat).map (· ++ extension name) := by
  unfold truncateCounted
  rw [hn, he]

theorem truncateCounted_fits (result : Text) (h : truncateCounted cs limit name = .ok result) :
    ∃ n : Nat, cs.encodedLength? result = some n ∧ n ≤ limit := by
  cases hn : cs.encodedLength? name with
  | none =>
    unfold truncateCounted at h
    rw [hn] at h
    cases h
  | some n =>
    obtain ⟨k, e, hk, he, -⟩ := encodedLength?_base cs name n hn
    rw [truncateCounted_eq cs limit name n e hn he] at h
    split_ifs at h with hfits hlong
    · obtain rfl := Except.ok.inj h
      exact ⟨n, hn, hfits⟩
    · obtain ⟨front, -, j, hcut, -, -, hj, hroom, -⟩ :=
        cutBytes_spec cs (base name) (limit - e).toNat k hk
      rw [hcut, map_ok] at h
      obtain rfl := Except.ok.inj h
      refine ⟨j + e, ?_, by omega⟩
      exact (encodedLength?_in_front cs name front _).mpr ⟨j, e, hj, he, rfl⟩

theorem truncate_eq_counted (hround : ¬ (name = [] ∧ RoundsToZero cs limit)) :
    truncate .bytes cs limit name = truncateCounted cs limit name := by
  unfold truncate truncateBytes truncateCounted
  cases hn : cs.encodedLength? name with
  | none => rfl
  | some n =>
    obtain ⟨k, e, -, he, -⟩ := encodedLength?_base cs name n hn
    rw [he]
    by_cases hfew : (name.length : Int) ≤ limit.tdiv cs.maxBytesPerUnit
    · have hfits := fits_of_few_units_of_not_rounded cs limit name n hn hround hfew
      simp only [if_pos hfew, if_pos hfits]
    · simp only [if_neg hfew]

theorem truncate_of_rounded (hround : RoundsToZero cs limit) :
    truncate .bytes cs limit [] = .ok [] :=
  if_pos ((few_units_of_neg_iff cs limit [] hround.1).mpr ⟨rfl, hround⟩)

theorem truncateCounted_of_neg (hneg : limit < 0) :
    truncateCounted cs limit [] = .error (.extensionTooLong [] 0 limit .bytes) := by
  rw [truncateCounted_eq cs limit [] 0 0 rfl rfl]
  exact (if_neg (Int.not_le.mpr hneg)).trans (if_pos hneg)

/-- **The worst case.** Truncation by bytes does what it does when it counts the bytes of every
name, and what it gives back has no more bytes than the limit, unless the name is empty and the
limit is negative but rounded to zero. -/
theorem truncate_eq_counted_iff :
    (truncate .bytes cs limit name = truncateCounted cs limit name ↔
        ¬ (name = [] ∧ RoundsToZero cs limit)) ∧
      ∀ result, truncate .bytes cs limit name = .ok result →
        ((∃ n : Nat, cs.encodedLength? result = some n ∧ n ≤ limit) ↔
          ¬ (name = [] ∧ RoundsToZero cs limit)) := by
  by_cases hround : name = [] ∧ RoundsToZero cs limit
  · obtain ⟨rfl, hround⟩ := hround
    have hfast := truncate_of_rounded cs limit hround
    have hcounted := truncateCounted_of_neg cs limit hround.1
    refine ⟨iff_of_false ?_ (by simpa using hround), fun result hresult => ?_⟩
    · rw [hfast, hcounted]
      nofun
    · obtain rfl := Except.ok.inj (hfast.symm.trans hresult)
      refine iff_of_false ?_ (by simpa using hround)
      rintro ⟨n, -, hn⟩
      have hneg := hround.1
      omega
  · have heq := truncate_eq_counted cs limit name hround
    refine ⟨iff_of_true heq hround, fun result hresult => iff_of_true ?_ hround⟩
    rw [heq] at hresult
    exact truncateCounted_fits cs limit name result hresult

end

theorem truncate_eq_counted_euros :
    truncate .bytes .utf8 9 [0x20AC, 0x20AC, 0x20AC] = .ok [0x20AC, 0x20AC, 0x20AC] ∧
      ∃ n : Nat, Charset.encodedLength? .utf8 [0x20AC, 0x20AC, 0x20AC] = some n ∧ (n : Int) ≤ 9 := by
  have hresult : truncate .bytes .utf8 9 [0x20AC, 0x20AC, 0x20AC] =
      .ok [0x20AC, 0x20AC, 0x20AC] := rfl
  have hlaw := (truncate_eq_counted_iff .utf8 9 [0x20AC, 0x20AC, 0x20AC]).2 _ hresult
  exact ⟨hresult, hlaw.mpr (by decide)⟩

/-- Under the limit of minus one byte, the empty name is given back in UTF-8. -/
theorem truncate_empty_under_zero :
    (¬ ∀ (cs : Charset) (limit : Int) (name : Text), -2147483648 ≤ limit → limit ≤ 2147483647 →
        truncate .bytes cs limit name = truncateCounted cs limit name) ∧
      ¬ ∀ (cs : Charset) (limit : Int) (name result : Text), -2147483648 ≤ limit →
        limit ≤ 2147483647 → truncate .bytes cs limit name = .ok result →
        ∃ n : Nat, cs.encodedLength? result = some n ∧ n ≤ limit := by
  constructor
  · intro h
    have heq := h .utf8 (-1) [] (by decide) (by decide)
    rw [truncateCounted_of_neg .utf8 (-1) (by decide)] at heq
    cases heq
  · intro h
    obtain ⟨n, -, hn⟩ := h .utf8 (-1) [] [] (by decide) (by decide) rfl
    omega

end FileName

end LexicalPath
