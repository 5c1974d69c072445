import LexicalPath.Proofs.FileName.Truncate

/-!
# The longest cut by units

A cut that would end in a high surrogate is made one unit earlier, and what follows the surrogate is
not looked at. So the cut is the longest one unless the surrogate has no other half.
-/

namespace LexicalPath.FileName

open Text

/-! ## Cuts of a text -/

section

variable (t : Text) (count : Nat)

/-- A part from the start of the text that cuts no pair apart, and the longest one that has at most
`count` units. -/
structure IsLongestPart (front : Text) : Prop where
  whole : ∃ back, t = front ++ back ∧ ¬ SplitsPair front back
  within : front.length ≤ count
  longest : ∀ front' back', t = front' ++ back' → ¬ SplitsPair front' back' →
    front'.length ≤ count → front'.length ≤ front.length

/-- The first `count` units end in a high surrogate that no low one follows. -/
def EndsInLoneHigh : Prop :=
  (t.take count).getLast?.any CodeUnit.isHighSurrogate = true ∧
    ¬ SplitsPair (t.take count) (t.drop count)

instance : Decidable (EndsInLoneHigh t count) := inferInstanceAs (Decidable (_ ∧ ¬ (_ ∧ _)))

variable (hcount : count ≤ t.length)

include hcount

theorem cutUnits_cases :
    ((t.take count).getLast?.any CodeUnit.isHighSurrogate = false ∧
        cutUnits t count = t.take count) ∨
      ∃ u, u.isHighSurrogate = true ∧ t.take count = cutUnits t count ++ [u] := by
  cases count with
  | zero => exact Or.inl ⟨rfl, rfl⟩
  | succ n =>
    have hlast : t.take (n + 1) = t.take n ++ [t[n]] := (List.take_append_getElem hcount).symm
    have hunit : t[n + 1 - 1]?.any CodeUnit.isHighSurrogate = t[n].isHighSurrogate := by
      rw [Nat.add_sub_cancel, List.getElem?_eq_getElem hcount, Option.any_some]
    unfold cutUnits
    rw [hunit]
    cases hhigh : t[n].isHighSurrogate with
    | true =>
      rw [if_pos ⟨Nat.succ_pos n, rfl⟩]
      exact Or.inr ⟨t[n], hhigh, hlast⟩
    | false =>
      rw [if_neg (by simp), hlast, List.getLast?_concat, Option.any_some]
      exact Or.inl ⟨hhigh, rfl⟩

theorem isLongestPart_take (h : ¬ SplitsPair (t.take count) (t.drop count)) :
    IsLongestPart t count (t.take count) := by
  have hlength : (t.take count).length = count := List.length_take_of_le hcount
  refine ⟨⟨_, (List.take_append_drop count t).symm, h⟩, Nat.le_of_eq hlength, ?_⟩
  intro front' back' _ _ hle
  rwa [hlength]

theorem isLongestPart_of_splitsPair (front : Text) (u : CodeUnit)
    (hsplit : SplitsPair (t.take count) (t.drop count)) (htake : t.take count = front ++ [u])
    (hwhole : ∃ back, t = front ++ back ∧ ¬ SplitsPair front back) :
    IsLongestPart t count front := by
  have hlength := congrArg List.length htake
  rw [List.length_take_of_le hcount, List.length_append, List.length_singleton] at hlength
  refine ⟨hwhole, by omega, fun front' back' ht hpair hle => ?_⟩
  have hne : front'.length ≠ count := by
    rintro rfl
    rw [ht, List.take_left, List.drop_left] at hsplit
    exact hpair hsplit
  omega

theorem cutUnits_longest_iff :
    (IsLongestPart t count (cutUnits t count) ↔ ¬ EndsInLoneHigh t count) ∧
      (EndsInLoneHigh t count →
        ∃ u, u.isHighSurrogate = true ∧ IsLongestPart t count (cutUnits t count ++ [u])) := by
  rcases cutUnits_cases t count hcount with ⟨hlast, hall⟩ | ⟨u, hu, htake⟩
  · have hlone : ¬ EndsInLoneHigh t count := fun h => Bool.eq_false_iff.mp hlast h.1
    have hwhole : ¬ SplitsPair (t.take count) (t.drop count) :=
      fun h => Bool.eq_false_iff.mp hlast h.1
    rw [hall]
    exact ⟨iff_of_true (isLongestPart_take t count hcount hwhole) hlone, fun h => absurd h hlone⟩
  · by_cases hsplit : SplitsPair (t.take count) (t.drop count)
    · have hlone : ¬ EndsInLoneHigh t count := fun h => h.2 hsplit
      have hcut := isLongestPart_of_splitsPair t count hcount _ u hsplit htake
        (cutUnits_spec t count).1
      exact ⟨iff_of_true hcut hlone, fun h => absurd h hlone⟩
    · -- The unit that is left out could have stayed.
      have hlone : EndsInLoneHigh t count := by
        refine ⟨?_, hsplit⟩
        rw [htake, List.getLast?_concat, Option.any_some, hu]
      have htaken := isLongestPart_take t count hcount hsplit
      refine ⟨iff_of_false (fun hcut => ?_) (not_not_intro hlone), fun _ => ⟨u, hu, ?_⟩⟩
      · have hle := hcut.longest _ _ (List.take_append_drop count t).symm hsplit htaken.within
        rw [htake, List.length_append, List.length_singleton] at hle
        omega
      · rwa [← htake]

end

/-! ## Cuts of a name -/

/-- The number of units that the extension leaves to the base. -/
def roomForBase (limit : Int) (name : Text) : Nat := (limit - (extension name).length).toNat

theorem roomForBase_le (limit : Int) (name : Text) (hlong : limit < name.length) :
    roomForBase limit name ≤ (base name).length := by
  have hname := congrArg List.length (base_append_extension name)
  rw [List.length_append] at hname
  unfold roomForBase
  omega

theorem truncateUnits_eq_ok_iff (limit : Int) (name result : Text) (hlong : limit < name.length) :
    truncateUnits limit name = .ok result ↔
      ((extension name).length : Int) ≤ limit ∧
        result = cutUnits (base name) (roomForBase limit name) ++ extension name := by
  unfold truncateUnits
  rw [if_neg (Int.not_le.mpr hlong)]
  split_ifs with hext
  · exact iff_of_false nofun fun h => Int.not_lt.mpr h.1 hext
  · rw [Except.ok.injEq, eq_comm]
    exact ⟨fun h => ⟨Int.not_lt.mp hext, h⟩, fun h => h.2⟩

/-- **The longest cut.** A name that is cut by units keeps the longest part of its base that leaves
room for the extension and cuts no pair apart, unless the units that there is room for end in a lone
high surrogate. That one is dropped, and with it the part would be the longest. -/
theorem truncate_longest_iff (cs : Charset) (limit : Int) (name result : Text)
    (hlong : limit < name.length) (h : truncate .utf16 cs limit name = .ok result) :
    ∃ front, result = front ++ extension name ∧
      (IsLongestPart (base name) (roomForBase limit name) front ↔
        ¬ EndsInLoneHigh (base name) (roomForBase limit name)) ∧
      (EndsInLoneHigh (base name) (roomForBase limit name) →
        ∃ u, u.isHighSurrogate = true ∧
          IsLongestPart (base name) (roomForBase limit name) (front ++ [u])) := by
  obtain ⟨-, hresult⟩ := (truncateUnits_eq_ok_iff limit name result hlong).mp h
  exact ⟨_, hresult, cutUnits_longest_iff _ _ (roomForBase_le limit name hlong)⟩

theorem truncate_longest_pair :
    (5 : Int) < [0x61, 0x62, 0xD83D, 0xDE00, 0x2E, 0x78].length ∧
      truncate .utf16 .utf8 5 [0x61, 0x62, 0xD83D, 0xDE00, 0x2E, 0x78] =
        .ok [0x61, 0x62, 0x2E, 0x78] ∧
      ∃ front, [0x61, 0x62, 0x2E, 0x78] =
          front ++ extension [0x61, 0x62, 0xD83D, 0xDE00, 0x2E, 0x78] ∧
        IsLongestPart (base [0x61, 0x62, 0xD83D, 0xDE00, 0x2E, 0x78]) 3 front := by
  have hlong : (5 : Int) < [0x61, 0x62, 0xD83D, 0xDE00, 0x2E, 0x78].length := by decide
  have hresult : truncate .utf16 .utf8 5 [0x61, 0x62, 0xD83D, 0xDE00, 0x2E, 0x78] =
      .ok [0x61, 0x62, 0x2E, 0x78] := rfl
  obtain ⟨front, hfront, hlongest, -⟩ := truncate_longest_iff .utf8 5 _ _ hlong hresult
  exact ⟨hlong, hresult, front, hfront, hlongest.mpr (by decide)⟩

/-- In front of `b` the lone half of a pair is dropped, although there is room for it. -/
theorem truncate_drops_lone_high :
    ¬ ∀ (cs : Charset) (limit : Int) (name result : Text), 0 ≤ limit → limit < name.length →
      truncate .utf16 cs limit name = .ok result →
      ∃ front, result = front ++ extension name ∧
        IsLongestPart (base name) (roomForBase limit name) front := by
  intro h
  obtain ⟨front, hfront, hlongest⟩ :=
    h .utf8 2 [0x61, 0xD800, 0x62] [0x61] (by decide) (by decide) rfl
  have hpair : ¬ SplitsPair [0x61, 0xD800] [0x62] := fun hpair => absurd hpair.2 (by decide)
  have hle := hlongest.longest [0x61, 0xD800] [0x62] rfl hpair (by decide)
  have hlength := congrArg List.length hfront
  rw [List.length_append] at hlength
  simp only [List.length_cons, List.length_nil] at hle hlength
  omega

end LexicalPath.FileName
