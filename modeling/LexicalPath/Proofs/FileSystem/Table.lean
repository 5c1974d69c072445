import LexicalPath.FileSystem.Profile
import Mathlib.Order.Basic

/-!
# Look-up in sorted tables finds what is there

In a table that is sorted by a transitive order the bisection parts the entries that are less than
the key from the others.
-/

namespace LexicalPath

namespace Table

section

variable {α : Type} (less : α → α → Bool) (table : Array α) (a : α)

def Sorted : Prop := table.toList.Pairwise fun b c => less b c = true

/-- The `count` entries from `first` on part those that are less than `a` from the others. -/
structure Parts (first count : Nat) : Prop where
  within : first + count ≤ table.size
  below : ∀ i (hi : i < table.size), i < first → less table[i] a = true
  above : ∀ i (hi : i < table.size), first + count ≤ i → less table[i] a = false

variable (htrans : ∀ b c d, less b c = true → less c d = true → less b d = true)
  (hsorted : Sorted less table)

include hsorted in
theorem less_of_lt (i j : Nat) (hi : i < table.size) (hj : j < table.size) (hij : i < j) :
    less table[i] table[j] = true := by
  have h := List.pairwise_iff_getElem.mp hsorted i j (by simpa using hi) (by simpa using hj) hij
  simpa using h

include htrans hsorted in
theorem Parts.halve (first count half : Nat) (hhalf : half < count)
    (h : Parts less table a first count) :
    ∃ b, table[first + half]? = some b ∧
      (less b a = true → Parts less table a (first + half + 1) (count - half - 1)) ∧
      (less b a = false → Parts less table a first half) := by
  have hmid : first + half < table.size := by
    have := h.within
    omega
  refine ⟨table[first + half], Array.getElem?_eq_getElem hmid, ?_, ?_⟩
  · intro hless
    constructor
    · have := h.within
      omega
    · intro i hi hlt
      by_cases hi' : i = first + half
      · simpa [hi'] using hless
      · exact htrans _ _ _ (less_of_lt less table hsorted i _ hi hmid (by omega)) hless
    · intro i hi hle
      exact h.above i hi (by omega)
  · intro hless
    constructor
    · omega
    · exact h.below
    · intro i hi hle
      by_cases hi' : i = first + half
      · simpa [hi'] using hless
      · rw [Bool.eq_false_iff]
        intro hlt
        rw [htrans _ _ _ (less_of_lt less table hsorted _ i hmid hi (by omega)) hlt] at hless
        cases hless

include htrans hsorted in
theorem narrow_parts (rounds first count : Nat) (hrounds : count ≤ rounds)
    (h : Parts less table a first count) :
    Parts less table a (narrow less table a rounds first count) 0 := by
  induction rounds generalizing first count with
  | zero =>
    obtain rfl := Nat.le_zero.mp hrounds
    exact h
  | succ rounds ih =>
    cases count with
    | zero => exact h
    | succ count =>
      obtain ⟨b, hb, hright, hleft⟩ :=
        h.halve less table a htrans hsorted first (count + 1) ((count + 1) / 2) (by omega)
      simp only [narrow, hb]
      cases hless : less b a with
      | true =>
        rw [if_pos rfl]
        apply ih _ _ (by omega)
        have hcount : count + 1 - (count + 1) / 2 - 1 = count - (count + 1) / 2 := by omega
        rw [← hcount]
        exact hright hless
      | false =>
        rw [if_neg Bool.false_ne_true]
        exact ih _ _ (by omega) (hleft hless)

include htrans hsorted in
theorem contains_iff :
    contains less table a = true ↔ ∃ b ∈ table, less b a = false ∧ less a b = false := by
  have hstart : Parts less table a 0 table.size := by
    refine ⟨Nat.le_of_eq (Nat.zero_add _), nofun, ?_⟩
    intro i hi hle
    omega
  have hparts : Parts less table a (lowerBound less table a) 0 :=
    narrow_parts less table a htrans hsorted table.size 0 table.size (Nat.le_refl _) hstart
  unfold contains
  constructor
  · intro h
    obtain ⟨b, hb, hless⟩ := Option.any_eq_true _ _ |>.mp h
    obtain ⟨hlt, rfl⟩ := Array.getElem?_eq_some_iff.mp hb
    exact ⟨_, Array.getElem_mem hlt, hparts.above _ hlt (Nat.le_refl _), by simpa using hless⟩
  · rintro ⟨b, hb, hba, hab⟩
    obtain ⟨i, hi, rfl⟩ := Array.getElem_of_mem hb
    have hle : lowerBound less table a ≤ i := by
      by_contra hlt
      rw [hparts.below i hi (by omega)] at hba
      cases hba
    have hbound : lowerBound less table a < table.size := by omega
    rw [Array.getElem?_eq_getElem hbound, Option.any_some, Bool.not_eq_true']
    by_cases heq : lowerBound less table a = i
    · simpa [heq] using hab
    · rw [Bool.eq_false_iff]
      intro hless
      rw [htrans _ _ _ hless (less_of_lt less table hsorted _ i hbound hi (by omega))] at hab
      cases hab

end

end Table

theorem Profile.isIllegal_iff (fs : Profile) (c : CodePoint)
    (hsorted : fs.illegal.toList.Pairwise (· < ·)) : fs.isIllegal c = true ↔ c ∈ fs.illegal := by
  unfold isIllegal
  rw [Table.contains_iff]
  · simp only [decide_eq_false_iff_not, Nat.not_lt]
    constructor
    · rintro ⟨b, hb, hle, hge⟩
      rwa [Nat.le_antisymm hle hge]
    · intro hc
      exact ⟨c, hc, Nat.le_refl c, Nat.le_refl c⟩
  · intro b c d hbc hcd
    rw [decide_eq_true_eq] at hbc hcd ⊢
    exact Nat.lt_trans hbc hcd
  · simpa [Table.Sorted] using hsorted

end LexicalPath
