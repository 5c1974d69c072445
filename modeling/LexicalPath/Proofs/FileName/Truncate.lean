import LexicalPath.FileName.Truncate
import LexicalPath.Proofs.Charset.Encoding
import LexicalPath.Proofs.Failure

/-!
# What truncation leaves of a name

A name that does not fit keeps its extension and loses the end of its base, at a place where no
surrogate pair is cut apart. Among such cuts the one by bytes is the longest that fits.
-/

namespace LexicalPath.FileName

open Text

/-! ## The extension -/

theorem extension_cases (name : Text) :
    extension name = [] ∨ ∃ t, extension name = CodeUnit.dot :: t := by
  unfold extension extensionIdx? indexOf? Search.next?
  cases h : (name.drop (1 : Int).toNat).findIdx? (· == CodeUnit.dot) with
  | none => exact Or.inl rfl
  | some i =>
    obtain ⟨hi, hdot, -⟩ := List.findIdx?_eq_some_iff_getElem.mp h
    right
    refine ⟨(name.drop (1 : Int).toNat).drop (i + 1), ?_⟩
    have hunit := eq_of_beq hdot
    rw [← hunit, List.getElem_cons_drop, List.drop_drop, Nat.add_comm]
    rfl

/-- No pair is cut apart in front of the extension, for a dot is no half of a pair. -/
theorem not_splitsPair_extension (front name : Text) : ¬ SplitsPair front (extension name) := by
  rintro ⟨-, hlow⟩
  rcases extension_cases name with h | ⟨t, h⟩
  · simp [h] at hlow
  · rw [h] at hlow
    simp [CodeUnit.dot, CodeUnit.ofChar, CodeUnit.isLowSurrogate] at hlow

/-! ## Names that fit -/

section

variable (cs : Charset) (limit : Int) (name : Text)

theorem fits_utf16_iff : fits .utf16 cs limit name = true ↔ (name.length : Int) ≤ limit := by
  unfold fits
  exact decide_eq_true_iff

theorem not_fits_utf16_iff : fits .utf16 cs limit name = false ↔ limit < name.length := by
  rw [← Bool.not_eq_true, fits_utf16_iff, Int.not_le]

theorem fits_bytes_iff (hlimit : limit < unmeasurable) :
    fits .bytes cs limit name = true ↔ ∃ n : Nat, cs.encodedLength? name = some n ∧ n ≤ limit := by
  unfold fits measure
  cases cs.encodedLength? name with
  | none => simpa using hlimit
  | some n => simp

theorem not_fits_bytes_iff (n : Nat) (hn : cs.encodedLength? name = some n) :
    fits .bytes cs limit name = false ↔ limit < n := by
  unfold fits measure
  simp [hn]

/-! ## Cuts -/

/-- The first part of a base can stand in front of the extension of the name. -/
structure IsCut (unit : LengthUnit) (front : Text) : Prop where
  whole : ∃ back, base name = front ++ back ∧ ¬ SplitsPair front back
  fits : fits unit cs limit (front ++ extension name) = true

theorem IsCut.codePoints (unit : LengthUnit) (front : Text) (h : IsCut cs limit name unit front) :
    ∃ back, Text.codePoints name =
        Text.codePoints front ++ back ++ Text.codePoints (extension name) ∧
      Text.codePoints (front ++ extension name) =
        Text.codePoints front ++ Text.codePoints (extension name) := by
  obtain ⟨back, hbase, hcut⟩ := h.whole
  refine ⟨Text.codePoints back, ?_, codePoints_append _ _ (not_splitsPair_extension front name)⟩
  rw [← codePoints_append _ _ hcut, ← hbase,
    ← codePoints_append _ _ (not_splitsPair_extension _ name), base_append_extension]

theorem cutUnits_spec (t : Text) (count : Nat) :
    (∃ back, t = cutUnits t count ++ back ∧ ¬ SplitsPair (cutUnits t count) back) ∧
      (cutUnits t count).length ≤ count ∧
      (count ≤ t.length → count ≤ (cutUnits t count).length + 1) := by
  unfold cutUnits
  split
  · next h =>
    refine ⟨⟨t.drop (count - 1), (List.take_append_drop _ t).symm, ?_⟩, ?_, ?_⟩
    · -- What is left out starts with the first half of a pair.
      rintro ⟨-, hlow⟩
      rw [List.head?_drop] at hlow
      obtain ⟨u, hu, hhigh⟩ := Option.any_eq_true _ _ |>.mp h.2
      rw [hu, Option.any_some, CodeUnit.isLowSurrogate_eq_false_of_isHighSurrogate hhigh] at hlow
      cases hlow
    · rw [List.length_take]
      omega
    · intro hcount
      rw [List.length_take]
      omega
  · next h =>
    refine ⟨⟨t.drop count, (List.take_append_drop _ t).symm, ?_⟩, ?_, ?_⟩
    · rintro ⟨hhigh, hlow⟩
      apply h
      rw [List.getLast?_take] at hhigh
      rw [List.head?_drop] at hlow
      have hcount : 0 < count := by
        by_contra hzero
        simp [Nat.eq_zero_of_not_pos hzero] at hhigh
      obtain ⟨v, hv, -⟩ := Option.any_eq_true _ _ |>.mp hlow
      obtain ⟨hlt, -⟩ := List.getElem?_eq_some_iff.mp hv
      have hlast : t[count - 1]? = some t[count - 1] := List.getElem?_eq_getElem (by omega)
      exact ⟨hcount, by simpa [hlast, Nat.ne_of_gt hcount] using hhigh⟩
    · rw [List.length_take]
      omega
    · intro hcount
      rw [List.length_take]
      omega

theorem cutBytes_spec (t : Text) (room n : Nat) (h : cs.encodedLength? t = some n) :
    ∃ front back k, cutBytes cs t room = .ok front ∧ t = front ++ back ∧ ¬ SplitsPair front back ∧
      cs.encodedLength? front = some k ∧ k ≤ room ∧
      ∀ front' back' k', t = front' ++ back' → ¬ SplitsPair front' back' →
        cs.encodedLength? front' = some k' → k' ≤ room → front'.length ≤ front.length := by
  obtain ⟨done, rest, k, status, ht, hdone, hk, hstops, hrun⟩ := cs.runOn_spec room (codePoints t)
  obtain ⟨-, -, hfront, -⟩ := codePoints_cut t done rest ht
  simp only [Charset.encodedLength?_eq] at h ⊢
  have hsum := h
  rw [ht, Charset.widthSum?_append_eq_some_iff] at hsum
  obtain ⟨-, m, -, hrest, -⟩ := hsum
  refine ⟨t.take (unitSum done), t.drop (unitSum done), k, ?_, (List.take_append_drop _ t).symm,
    codePoints_cut_whole t done rest ht, ?_, hk, ?_⟩
  · unfold cutBytes
    rw [Charset.encodeInto_eq, hrun]
    rcases hstops.of_widthSum? cs _ _ _ m hrest with ⟨-, rfl⟩ | ⟨-, -, -, -, rfl, -⟩ <;> rfl
  · rw [hfront, hdone]
  · intro front' back' j ht' hcut' hj hroom
    rw [← unitSum_codePoints front', ← unitSum_codePoints (t.take _), hfront]
    rw [ht', codePoints_append front' back' hcut'] at ht
    exact hstops.longest cs room k m j done rest _ _ status hdone hrest ht.symm hj hroom

/-! ## The outcomes -/

/-- No part of the name can be given back: it has no length, or its extension is too long. -/
def Refused (unit : LengthUnit) : Prop :=
  (unit = .bytes ∧ cs.canEncode name = false) ∨ limit < measure unit cs (extension name)

instance (unit : LengthUnit) : Decidable (Refused cs limit name unit) :=
  inferInstanceAs (Decidable (_ ∨ _))

theorem encodedLength?_of_not_refused (h : ¬ Refused cs limit name .bytes) :
    ∃ n, cs.encodedLength? name = some n := by
  unfold Refused Charset.canEncode at h
  rw [← Option.ne_none_iff_exists']
  simpa using (not_or.mp h).1

theorem encodedLength?_in_front (front : Text) (n : Nat) :
    cs.encodedLength? (front ++ extension name) = some n ↔ ∃ k e,
      cs.encodedLength? front = some k ∧ cs.encodedLength? (extension name) = some e ∧ k + e = n :=
  cs.encodedLength?_append_eq_some_iff _ _ n (not_splitsPair_extension front name)

theorem encodedLength?_base (n : Nat) (h : cs.encodedLength? name = some n) :
    ∃ k e, cs.encodedLength? (base name) = some k ∧
      cs.encodedLength? (extension name) = some e ∧ k + e = n := by
  rwa [← encodedLength?_in_front, base_append_extension]

theorem fits_of_few_units (n : Nat) (h0 : 0 ≤ limit) (hn : cs.encodedLength? name = some n)
    (hfew : (name.length : Int) ≤ limit.tdiv cs.maxBytesPerUnit) : (n : Int) ≤ limit := by
  have hle : (n : Int) ≤ cs.maxBytesPerUnit * name.length :=
    mod_cast cs.encodedLength?_le name n hn
  rw [Int.tdiv_eq_ediv_of_nonneg h0] at hfew
  calc (n : Int) ≤ cs.maxBytesPerUnit * name.length := hle
    _ ≤ cs.maxBytesPerUnit * (limit / cs.maxBytesPerUnit) :=
      Int.mul_le_mul_of_nonneg_left hfew (Int.natCast_nonneg _)
    _ ≤ limit := Int.mul_ediv_self_le (by cases cs <;> decide)

theorem truncateBytes_eq (n e : Nat) (h0 : 0 ≤ limit) (hn : cs.encodedLength? name = some n)
    (he : cs.encodedLength? (extension name) = some e) :
    truncateBytes cs limit name =
      if (n : Int) ≤ limit then .ok name
      else if limit < e then .error (.extensionTooLong (extension name) e limit .bytes)
      else (cutBytes cs (base name) (limit - e).toNat).map (· ++ extension name) := by
  unfold truncateBytes
  rw [hn, he]
  by_cases hfew : (name.length : Int) ≤ limit.tdiv cs.maxBytesPerUnit
  · rw [if_pos (fits_of_few_units cs limit name n h0 hn hfew)]
    exact if_pos hfew
  · exact if_neg hfew

theorem truncate_of_fits (unit : LengthUnit) (h0 : 0 ≤ limit) (hlimit : limit < unmeasurable)
    (h : fits unit cs limit name = true) : truncate unit cs limit name = .ok name := by
  cases unit with
  | utf16 =>
    rw [fits_utf16_iff] at h
    exact if_pos h
  | bytes =>
    obtain ⟨n, hn, hle⟩ := (fits_bytes_iff cs limit name hlimit).mp h
    obtain ⟨k, e, -, he, -⟩ := encodedLength?_base cs name n hn
    exact (truncateBytes_eq cs limit name n e h0 hn he).trans (if_pos hle)

theorem truncate_of_refused (unit : LengthUnit) (h0 : 0 ≤ limit)
    (h : fits unit cs limit name = false) (hrefused : Refused cs limit name unit) :
    ∃ e, truncate unit cs limit name = .error e := by
  cases unit with
  | utf16 =>
    rcases hrefused with ⟨hunit, -⟩ | hlong
    · cases hunit
    · have hlength := (not_fits_utf16_iff cs limit name).mp h
      exact ⟨_, (if_neg (Int.not_le.mpr hlength)).trans (if_pos hlong)⟩
  | bytes =>
    unfold Refused Charset.canEncode at hrefused
    cases hn : cs.encodedLength? name with
    | none => exact ⟨.unencodable cs, by simp [truncate, truncateBytes, hn]⟩
    | some n =>
      obtain ⟨k, e, -, he, -⟩ := encodedLength?_base cs name n hn
      have hlong : limit < e := by simpa [hn, measure, he] using hrefused
      have hlength := (not_fits_bytes_iff cs limit name n hn).mp h
      exact ⟨_, (truncateBytes_eq cs limit name n e h0 hn he).trans
        ((if_neg (Int.not_le.mpr hlength)).trans (if_pos hlong))⟩

/-- A cut leaves as much as it can: by bytes it is the longest one, and by units at most one unit of
the limit is not used. -/
structure Ample (unit : LengthUnit) (front : Text) : Prop where
  longest : unit = .bytes → ∀ front', IsCut cs limit name unit front' → front'.length ≤ front.length
  near : unit = .utf16 → limit ≤ (front ++ extension name).length + 1

theorem truncateUnits_cut (h : fits .utf16 cs limit name = false)
    (hext : ((extension name).length : Int) ≤ limit) :
    ∃ front, truncateUnits limit name = .ok (front ++ extension name) ∧
      IsCut cs limit name .utf16 front ∧ Ample cs limit name .utf16 front := by
  obtain ⟨hback, hle, hnear⟩ := cutUnits_spec (base name) (limit - (extension name).length).toNat
  have hlength := (not_fits_utf16_iff cs limit name).mp h
  have hbase : (base name).length + (extension name).length = name.length := by
    rw [← List.length_append, base_append_extension]
  refine ⟨_, (if_neg (Int.not_le.mpr hlength)).trans (if_neg (Int.not_lt.mpr hext)),
    ⟨hback, ?_⟩, nofun, ?_⟩
  · rw [fits_utf16_iff, List.length_append]
    omega
  · intro _
    rw [List.length_append]
    omega

theorem truncateBytes_cut (n e : Nat) (h0 : 0 ≤ limit) (hlimit : limit < unmeasurable)
    (hn : cs.encodedLength? name = some n) (he : cs.encodedLength? (extension name) = some e)
    (hlength : limit < n) (hext : (e : Int) ≤ limit) :
    ∃ front, truncateBytes cs limit name = .ok (front ++ extension name) ∧
      IsCut cs limit name .bytes front ∧ Ample cs limit name .bytes front := by
  obtain ⟨k, -, hk, -, -⟩ := encodedLength?_base cs name n hn
  obtain ⟨front, back, j, hcut, hback, hpair, hj, hroom, hlongest⟩ :=
    cutBytes_spec cs (base name) (limit - e).toNat k hk
  refine ⟨front, ?_, ⟨⟨back, hback, hpair⟩, ?_⟩, ?_, nofun⟩
  · rw [truncateBytes_eq cs limit name n e h0 hn he, if_neg (Int.not_le.mpr hlength),
      if_neg (Int.not_lt.mpr hext), hcut, map_ok]
  · rw [fits_bytes_iff _ _ _ hlimit]
    refine ⟨j + e, ?_, by omega⟩
    exact (encodedLength?_in_front cs name front _).mpr ⟨j, e, hj, he, rfl⟩
  · intro _ front' h'
    obtain ⟨back', hback', hpair'⟩ := h'.whole
    obtain ⟨m, hm, hle⟩ := (fits_bytes_iff _ _ _ hlimit).mp h'.fits
    obtain ⟨i, e', hi, he', rfl⟩ := (encodedLength?_in_front cs name front' m).mp hm
    obtain rfl : e = e' := Option.some.inj (he.symm.trans he')
    exact hlongest front' back' i hback' hpair' hi (by omega)

theorem truncate_cut (unit : LengthUnit) (h0 : 0 ≤ limit) (hlimit : limit < unmeasurable)
    (h : fits unit cs limit name = false) (hrefused : ¬ Refused cs limit name unit) :
    ∃ front, truncate unit cs limit name = .ok (front ++ extension name) ∧
      IsCut cs limit name unit front ∧ Ample cs limit name unit front := by
  have hext := Int.not_lt.mp (not_or.mp hrefused).2
  cases unit with
  | utf16 => exact truncateUnits_cut cs limit name h hext
  | bytes =>
    obtain ⟨n, hn⟩ := encodedLength?_of_not_refused cs limit name hrefused
    obtain ⟨k, e, -, he, -⟩ := encodedLength?_base cs name n hn
    have hlength := (not_fits_bytes_iff cs limit name n hn).mp h
    have hext' : (e : Int) ≤ limit := by simpa [measure, he] using hext
    exact truncateBytes_cut cs limit name n e h0 hlimit hn he hlength hext'

theorem Ample.ne_nil (unit : LengthUnit) (front : Text) (h : Ample cs limit name unit front)
    (hrefused : ¬ Refused cs limit name unit) (hroom : 4 ≤ limit) (hlimit : limit < unmeasurable)
    (hname : name ≠ []) : front ++ extension name ≠ [] := by
  intro hnil
  obtain ⟨rfl, hext⟩ := List.append_eq_nil_iff.mp hnil
  cases unit with
  | utf16 =>
    have hnear := h.near rfl
    simp only [hext, List.append_nil, List.length_nil] at hnear
    omega
  | bytes =>
    have hbase : base name = name := by
      have happend := base_append_extension name
      rwa [hext, List.append_nil] at happend
    obtain ⟨c, rest, hcs⟩ := List.exists_cons_of_ne_nil (mt (codePoints_eq_nil name) hname)
    obtain ⟨-, -, hfirst, -⟩ := codePoints_cut name [c] rest hcs
    obtain ⟨n, hn⟩ := encodedLength?_of_not_refused cs limit name hrefused
    rw [Charset.encodedLength?_eq, hcs, Charset.widthSum?_cons_eq_some_iff] at hn
    obtain ⟨w, -, hw, -, -⟩ := hn
    have hcut : IsCut cs limit name .bytes (name.take (unitSum [c])) := by
      refine ⟨⟨_, hbase.trans (List.take_append_drop _ name).symm,
        codePoints_cut_whole name [c] rest hcs⟩, ?_⟩
      rw [fits_bytes_iff _ _ _ hlimit, hext, List.append_nil]
      have hle := (cs.width?_bounds c w hw).2.1
      refine ⟨w, ?_, by omega⟩
      rw [Charset.encodedLength?_eq, hfirst]
      simp [Charset.widthSum?, hw]
    have hle := h.longest rfl _ hcut
    rw [← unitSum_codePoints, hfirst, List.length_nil, Nat.le_zero, unitSum_eq_zero] at hle
    cases hle

theorem truncate_result (unit : LengthUnit) (result : Text) (h0 : 0 ≤ limit)
    (hlimit : limit < unmeasurable) (h : truncate unit cs limit name = .ok result) :
    fits unit cs limit result = true ∧
      (∀ c ∈ codePoints result, c ∈ codePoints name) ∧
      (4 ≤ limit → name ≠ [] → result ≠ []) := by
  cases hfits : fits unit cs limit name with
  | true =>
    rw [truncate_of_fits cs limit name unit h0 hlimit hfits] at h
    obtain rfl := Except.ok.inj h
    exact ⟨hfits, fun _ hc => hc, fun _ hname => hname⟩
  | false =>
    by_cases hrefused : Refused cs limit name unit
    · obtain ⟨e, he⟩ := truncate_of_refused cs limit name unit h0 hfits hrefused
      rw [he] at h
      cases h
    · obtain ⟨front, hfront, hcut, hample⟩ :=
        truncate_cut cs limit name unit h0 hlimit hfits hrefused
      rw [hfront] at h
      obtain rfl := Except.ok.inj h
      obtain ⟨back, hname, hresult⟩ := hcut.codePoints
      refine ⟨hcut.fits, ?_, ?_⟩
      · intro c hc
        rw [hresult, List.mem_append] at hc
        rw [hname, List.mem_append, List.mem_append]
        exact hc.imp_left Or.inl
      · intro hroom
        exact hample.ne_nil cs limit name unit front hrefused hroom hlimit

/-- **Truncation.** A name that fits is left alone. Any other is refused, or else it loses the end
of its base and no more than it has to. -/
theorem truncate_keeps_extension (unit : LengthUnit) (h0 : 0 ≤ limit)
    (hlimit : limit < unmeasurable) :
    (fits unit cs limit name = true → truncate unit cs limit name = .ok name) ∧
      (fits unit cs limit name = false →
        ((∃ e, truncate unit cs limit name = .error e) ↔ Refused cs limit name unit) ∧
          (¬ Refused cs limit name unit →
            ∃ front, truncate unit cs limit name = .ok (front ++ extension name) ∧
              IsCut cs limit name unit front ∧ Ample cs limit name unit front)) := by
  refine ⟨truncate_of_fits cs limit name unit h0 hlimit, fun h => ⟨⟨?_, ?_⟩, ?_⟩⟩
  · rintro ⟨e, he⟩
    by_contra hrefused
    obtain ⟨front, hfront, -, -⟩ := truncate_cut cs limit name unit h0 hlimit h hrefused
    rw [he] at hfront
    cases hfront
  · exact truncate_of_refused cs limit name unit h0 h
  · exact truncate_cut cs limit name unit h0 hlimit h

end

theorem truncate_umlauts :
    (0 : Int) ≤ 9 ∧ (9 : Int) < unmeasurable ∧
      fits .bytes .utf8 9 [0xE4, 0xF6, 0xFC, 0x2E, 0x74, 0x78, 0x74] = false ∧
      truncate .bytes .utf8 9 [0xE4, 0xF6, 0xFC, 0x2E, 0x74, 0x78, 0x74] =
        .ok [0xE4, 0xF6, 0x2E, 0x74, 0x78, 0x74] ∧
      ∃ front, truncate .bytes .utf8 9 [0xE4, 0xF6, 0xFC, 0x2E, 0x74, 0x78, 0x74] =
          .ok (front ++ extension [0xE4, 0xF6, 0xFC, 0x2E, 0x74, 0x78, 0x74]) ∧
        IsCut .utf8 9 [0xE4, 0xF6, 0xFC, 0x2E, 0x74, 0x78, 0x74] .bytes front ∧
        Ample .utf8 9 [0xE4, 0xF6, 0xFC, 0x2E, 0x74, 0x78, 0x74] .bytes front := by
  refine ⟨by decide, by decide, by decide, rfl, ?_⟩
  exact ((truncate_keeps_extension .utf8 9 _ .bytes (by decide) (by decide)).2 (by decide)).2
    (by decide)

end LexicalPath.FileName
