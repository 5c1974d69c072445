import LexicalPath.FileName.Legal
import LexicalPath.FileSystem.BuiltIn
import LexicalPath.Proofs.FileName.Truncate
import LexicalPath.Proofs.FileSystem.Table

/-!
# Making names legal

What comes out of legalization is legal unless it is reserved, and what is legal in this sense goes
through it unchanged.
-/

namespace LexicalPath

/-- What legalization needs of a profile: a table that can be searched, and names with room for any
code point. -/
structure Profile.Sound (fs : Profile) : Prop where
  sorted : fs.illegal.toList.Pairwise (· < ·)
  room : 4 ≤ fs.maxNameLength
  measurable : fs.maxNameLength < FileName.unmeasurable

theorem Profile.sound_ofSystemName (system : Bytes) : (Profile.ofSystemName system).Sound := by
  unfold Profile.ofSystemName
  split_ifs <;> exact ⟨by decide, by decide, by decide⟩

namespace FileName

open Text

/-- Legal, but perhaps reserved. -/
structure LegalUnlessReserved (fs : Profile) (cs : Charset) (name : Text) : Prop where
  nonempty : name ≠ []
  fits : fits fs.lengthUnit cs fs.maxNameLength name = true
  noIllegal : ∀ c ∈ codePoints name, c ∉ fs.illegal

section

variable (fs : Profile) (cs : Charset) (hfs : fs.Sound)

include hfs in
theorem isIllegal_eq_false_iff (c : CodePoint) : fs.isIllegal c = false ↔ c ∉ fs.illegal := by
  rw [← fs.isIllegal_iff c hfs.sorted, Bool.not_eq_true]

include hfs in
theorem LegalUnlessReserved.isLegal_eq (name : Text) (h : LegalUnlessReserved fs cs name) :
    isLegal fs cs name = !fs.isReserved name := by
  have hillegal : hasIllegal fs name = false := by
    unfold hasIllegal
    rw [List.any_eq_false]
    intro c hc
    rw [Bool.not_eq_true, isIllegal_eq_false_iff fs hfs]
    exact h.noIllegal c hc
  have hempty : name.isEmpty = false := by simpa using h.nonempty
  unfold isLegal
  simp [h.fits, hillegal, hempty]

/-! ## Replacing code points -/

/-- The code points of the new name are the replaced ones: no two of them join, for a replacement is
no half of a pair. -/
theorem codePoints_replaceIllegal (replacement : CodePoint) (name : Text)
    (hscalar : replacement.isScalar = true) :
    codePoints (replaceIllegal fs replacement name) =
      (codePoints name).map fun c => if fs.isIllegal c then replacement else c := by
  rw [CodePoint.isScalar_iff] at hscalar
  unfold replaceIllegal
  apply codePoints_ofCodePoints
  · intro d hd
    obtain ⟨c, hc, rfl⟩ := List.mem_map.mp hd
    split
    · exact hscalar.1
    · exact le_of_mem_codePoints name c hc
  · rw [List.isChain_map]
    apply (codePoints_isChain name).imp
    intro a b hab hjoins
    obtain ⟨ha, hb⟩ := hjoins.isSurrogate
    have hkept : ∀ c, CodePoint.isSurrogate (if fs.isIllegal c then replacement else c) = true →
        (if fs.isIllegal c then replacement else c) = c := by
      intro c hc
      split at hc
      · rw [hscalar.2] at hc
        cases hc
      · next hillegal => exact if_neg hillegal
    rw [hkept a ha, hkept b hb] at hjoins
    exact hab hjoins

include hfs in
theorem noIllegal_replaceIllegal (replacement : CodePoint) (name : Text)
    (hscalar : replacement.isScalar = true) (hlegal : replacement ∉ fs.illegal) :
    ∀ c ∈ codePoints (replaceIllegal fs replacement name), c ∉ fs.illegal := by
  intro c hc
  rw [codePoints_replaceIllegal fs replacement name hscalar] at hc
  obtain ⟨d, -, rfl⟩ := List.mem_map.mp hc
  split
  · exact hlegal
  · next hd => rwa [← isIllegal_eq_false_iff fs hfs, ← Bool.not_eq_true]

include hfs in
theorem replaceIllegal_of_noIllegal (replacement : CodePoint) (name : Text)
    (h : ∀ c ∈ codePoints name, c ∉ fs.illegal) : replaceIllegal fs replacement name = name := by
  have hkept : ∀ c ∈ codePoints name, (if fs.isIllegal c then replacement else c) = id c := by
    intro c hc
    rw [(isIllegal_eq_false_iff fs hfs c).mpr (h c hc)]
    rfl
  unfold replaceIllegal
  rw [List.map_congr_left hkept, List.map_id, ofCodePoints_codePoints]

theorem replaceIllegal_ne_nil (replacement : CodePoint) (name : Text)
    (hscalar : replacement.isScalar = true) (h : name ≠ []) :
    replaceIllegal fs replacement name ≠ [] := by
  intro hnil
  have hcodes := codePoints_replaceIllegal fs replacement name hscalar
  rw [hnil] at hcodes
  exact h (codePoints_eq_nil name (List.map_eq_nil_iff.mp hcodes.symm))

/-! ## The steps of legalization -/

include hfs in
theorem checkReplacement_eq_ok_iff (replacement : CodePoint) :
    checkReplacement fs replacement = .ok () ↔
      replacement.isScalar = true ∧ replacement ∉ fs.illegal := by
  rw [← isIllegal_eq_false_iff fs hfs]
  unfold checkReplacement
  cases replacement.isScalar <;> cases fs.isIllegal replacement <;> simp

include hfs in
theorem refit_result (replacement : CodePoint) (name result : Text)
    (h : (refit fs cs replacement name).value = .ok result) :
    fits fs.lengthUnit cs fs.maxNameLength result = true ∧
      (∀ c ∈ codePoints result, c ∈ codePoints name) ∧ (name ≠ [] → result ≠ []) := by
  unfold refit at h
  split at h
  · next hfits =>
    obtain rfl := Except.ok.inj h
    exact ⟨hfits, fun _ hc => hc, id⟩
  · have hroom := hfs.room
    obtain ⟨hfits, hmem, hne⟩ :=
      truncate_result cs _ name _ result (by omega) hfs.measurable h
    exact ⟨hfits, hmem, hne hroom⟩

include hfs in
theorem toLegal_of_legal (replacement : CodePoint) (candidate : Text)
    (h : LegalUnlessReserved fs cs candidate)
    (hreplacement : checkReplacement fs replacement = .ok ()) :
    toLegal fs cs replacement candidate = ⟨.ok candidate, []⟩ := by
  have hroom := hfs.room
  have hempty : candidate.isEmpty = false := by simpa using h.nonempty
  have htruncate := truncate_of_fits cs _ candidate _ (by omega) hfs.measurable h.fits
  unfold toLegal
  simp only [hempty, hreplacement, htruncate,
    replaceIllegal_of_noIllegal fs hfs replacement candidate h.noIllegal]
  exact if_pos h.fits

include hfs in
theorem toLegal_result (replacement : CodePoint) (candidate result : Text)
    (h : (toLegal fs cs replacement candidate).value = .ok result) :
    checkReplacement fs replacement = .ok () ∧ LegalUnlessReserved fs cs result := by
  have hroom := hfs.room
  unfold toLegal at h
  split at h
  · cases h
  · next hcandidate =>
    split at h
    · cases h
    · next hreplacement =>
      obtain ⟨hscalar, hlegal⟩ := (checkReplacement_eq_ok_iff fs hfs replacement).mp hreplacement
      split at h
      · cases h
      · next name hname =>
        obtain ⟨-, -, hne⟩ := truncate_result cs _ candidate _ name (by omega) hfs.measurable hname
        obtain ⟨hfits, hmem, hne'⟩ := refit_result fs cs hfs replacement _ result h
        refine ⟨hreplacement, ?_, hfits, ?_⟩
        · apply hne'
          apply replaceIllegal_ne_nil fs replacement name hscalar
          apply hne hroom
          simpa using hcandidate
        · intro c hc
          exact noIllegal_replaceIllegal fs hfs replacement name hscalar hlegal c (hmem c hc)

include hfs in
/-- **Legalization.** Whatever it returns is legal unless reserved and stays as it is the next time,
and so does every name that is legal unless reserved. -/
theorem toLegal_onto_legal :
    (∀ replacement candidate result,
        (toLegal fs cs replacement candidate).value = .ok result →
          LegalUnlessReserved fs cs result ∧ isLegal fs cs result = !fs.isReserved result ∧
            toLegal fs cs replacement result = ⟨.ok result, []⟩) ∧
      ∀ replacement candidate, LegalUnlessReserved fs cs candidate →
        replacement.isScalar = true → replacement ∉ fs.illegal →
          toLegal fs cs replacement candidate = ⟨.ok candidate, []⟩ := by
  constructor
  · intro replacement candidate result h
    obtain ⟨hreplacement, hresult⟩ := toLegal_result fs cs hfs replacement candidate result h
    exact ⟨hresult, hresult.isLegal_eq fs cs hfs,
      toLegal_of_legal fs cs hfs replacement result hresult hreplacement⟩
  · intro replacement candidate h hscalar hlegal
    apply toLegal_of_legal fs cs hfs replacement candidate h
    exact (checkReplacement_eq_ok_iff fs hfs replacement).mpr ⟨hscalar, hlegal⟩

end

theorem toLegal_slash :
    Profile.linux.Sound ∧
      (toLegal Profile.linux .utf8 0x5F [0x61, 0x2F, 0x62]).value = .ok [0x61, 0x5F, 0x62] ∧
      LegalUnlessReserved Profile.linux .utf8 [0x61, 0x5F, 0x62] ∧
      isLegal Profile.linux .utf8 [0x61, 0x5F, 0x62] =
        !Profile.linux.isReserved [0x61, 0x5F, 0x62] ∧
      toLegal Profile.linux .utf8 0x5F [0x61, 0x5F, 0x62] = ⟨.ok [0x61, 0x5F, 0x62], []⟩ :=
  have hfs : Profile.linux.Sound := ⟨by decide, by decide, by decide⟩
  ⟨hfs, rfl, (toLegal_onto_legal Profile.linux .utf8 hfs).1 0x5F [0x61, 0x2F, 0x62] _ rfl⟩

end FileName

end LexicalPath
