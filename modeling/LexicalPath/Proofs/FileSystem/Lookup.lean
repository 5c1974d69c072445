import LexicalPath.FileSystem.BuiltIn
import LexicalPath.Proofs.FileSystem.Table

/-!
# Look-ups in the tables of a file system

The illegal code points are searched by their values and the reserved names by their code units,
with the case of letters or without it. In ascending tables both searches find exactly what is there.
-/

namespace LexicalPath

/-! ## The order of texts -/

namespace Text

variable (s t : Text)

theorem less_iff_lt : s.less t = true ↔ s < t := by
  unfold less
  rw [beq_iff_eq]
  induction s generalizing t with
  | nil => cases t <;> simp [order]
  | cons u s ih =>
    cases t with
    | nil => simp [order]
    | cons v t =>
      rw [order, Ordering.then_eq_lt, ih, Nat.compare_eq_lt, Nat.compare_eq_eq, UInt16.toNat_inj,
        List.cons_lt_cons_iff, UInt16.lt_iff_toNat_lt]

theorem less_eq_false_iff : s.less t = false ↔ t ≤ s := by
  rw [← Bool.not_eq_true, less_iff_lt, List.not_lt]

/-- The text has no lower-case letter of ASCII. -/
def IsUpperCase (t : Text) : Prop := ∀ u ∈ t, ¬ (97 ≤ u.toNat ∧ u.toNat ≤ 122)

instance : Decidable (IsUpperCase t) :=
  List.decidableBAll (fun u : CodeUnit => ¬ (97 ≤ u.toNat ∧ u.toNat ≤ 122)) t

theorem fold_of_isUpperCase (h : IsUpperCase t) : t.fold = t := by
  have hupper : ∀ u ∈ t, u.upper = u := fun u hu => if_neg (h u hu)
  rw [fold, List.map_congr_left hupper, List.map_id']

end Text

/-! ## Tables of names -/

theorem Table.contains_key_iff (key : Text → Text) (table : Array Text) (a : Text)
    (hsorted : table.toList.Pairwise fun b c => key b < key c) :
    contains (fun b c => (key b).less (key c)) table a = true ↔ ∃ b ∈ table, key b = key a := by
  rw [Table.contains_iff]
  · constructor
    · rintro ⟨b, hb, hba, hab⟩
      rw [Text.less_eq_false_iff] at hba hab
      exact ⟨b, hb, List.le_antisymm hab hba⟩
    · rintro ⟨b, hb, heq⟩
      refine ⟨b, hb, ?_, ?_⟩
      · rw [heq, Text.less_eq_false_iff]
        exact List.le_refl _
      · rw [heq, Text.less_eq_false_iff]
        exact List.le_refl _
  · intro b c d hbc hcd
    rw [Text.less_iff_lt] at hbc hcd ⊢
    exact List.lt_trans hbc hcd
  · unfold Table.Sorted
    simpa only [Text.less_iff_lt] using hsorted

namespace FileName

theorem base_eq_takeWhile (name : Text) :
    base name = name.take 1 ++ (name.drop 1).takeWhile (· != CodeUnit.dot) := by
  cases name with
  | nil => rfl
  | cons u rest =>
    have hnot : (fun v => !(v != CodeUnit.dot)) = (· == CodeUnit.dot) := by
      funext v
      exact Bool.not_not _
    have hdrop : (u :: rest).drop (1 : Int).toNat = rest := rfl
    unfold base extensionIdx? Text.indexOf? Search.next?
    rw [List.takeWhile_eq_take_findIdx_not, hnot, hdrop]
    cases hidx : rest.findIdx? (· == CodeUnit.dot) with
    | none =>
      rw [List.findIdx?_eq_none_iff_findIdx_eq] at hidx
      simp [hidx]
    | some i =>
      obtain ⟨-, hfirst⟩ := List.findIdx?_eq_some_iff_findIdx_eq.mp hidx
      simp [hfirst]

end FileName

/-! ## Profiles -/

namespace Profile

variable (fs : Profile)

theorem stem_eq (name : Text) :
    fs.stem name =
      if fs.reservesExtensions then name.take 1 ++ (name.drop 1).takeWhile (· != CodeUnit.dot)
      else name := by
  unfold stem
  rw [FileName.base_eq_takeWhile]

theorem isReserved_of_sensitive (name : Text) (hcase : fs.caseSensitive = true)
    (hsorted : fs.reserved.toList.Pairwise (· < ·)) :
    fs.isReserved name = true ↔ fs.stem name ∈ fs.reserved := by
  unfold isReserved
  rw [if_pos hcase, show Text.less = fun b c => (id b).less (id c) from rfl,
    Table.contains_key_iff id fs.reserved _ hsorted]
  simp

/-- The entries are their own upper case, so they ascend without regard to case as well. -/
theorem isReserved_of_insensitive (name : Text) (hcase : fs.caseSensitive = false)
    (hsorted : fs.reserved.toList.Pairwise (· < ·))
    (hupper : ∀ entry ∈ fs.reserved, entry.IsUpperCase) :
    fs.isReserved name = true ↔ (fs.stem name).fold ∈ fs.reserved := by
  have hfold : ∀ entry ∈ fs.reserved, entry.fold = entry :=
    fun entry hentry => Text.fold_of_isUpperCase entry (hupper entry hentry)
  have hsorted' : fs.reserved.toList.Pairwise fun b c => b.fold < c.fold := by
    refine hsorted.imp_of_mem fun hb hc hless => ?_
    rwa [hfold _ (by simpa using hb), hfold _ (by simpa using hc)]
  unfold isReserved
  rw [if_neg (by simp [hcase]), show Text.lessFold = fun b c => b.fold.less c.fold from rfl,
    Table.contains_key_iff Text.fold fs.reserved _ hsorted']
  constructor
  · rintro ⟨entry, hentry, heq⟩
    rwa [← heq, hfold entry hentry]
  · intro hmem
    exact ⟨_, hmem, hfold _ hmem⟩

theorem tables_ofSystemName (system : Bytes) :
    (ofSystemName system).illegal.toList.Pairwise (· < ·) ∧
      (ofSystemName system).reserved.toList.Pairwise (· < ·) ∧
      ∀ entry ∈ (ofSystemName system).reserved, entry.IsUpperCase := by
  unfold ofSystemName
  split_ifs <;> decide +kernel

/-- **Look-ups.** In an ascending table the code points that are found are those of the table. In an
ascending table of names, which are in upper case where case does not matter, a name is found by its
stem. Where extensions do not count, the stem ends in front of the first dot behind the first
unit. -/
theorem lookups_find_members :
    (fs.illegal.toList.Pairwise (· < ·) → ∀ c, fs.isIllegal c = true ↔ c ∈ fs.illegal) ∧
      (fs.reserved.toList.Pairwise (· < ·) →
        (fs.caseSensitive = false → ∀ entry ∈ fs.reserved, entry.IsUpperCase) →
        ∀ name : Text,
          fs.stem name =
              (if fs.reservesExtensions then
                name.take 1 ++ (name.drop 1).takeWhile (· != CodeUnit.dot) else name) ∧
            (fs.isReserved name = true ↔
              (if fs.caseSensitive then fs.stem name else (fs.stem name).fold) ∈ fs.reserved)) := by
  refine ⟨fun hsorted c => fs.isIllegal_iff c hsorted, ?_⟩
  intro hsorted hupper name
  refine ⟨fs.stem_eq name, ?_⟩
  cases hcase : fs.caseSensitive with
  | true => exact fs.isReserved_of_sensitive name hcase hsorted
  | false => exact fs.isReserved_of_insensitive name hcase hsorted (hupper hcase)

theorem lookups_find_console :
    windows.illegal.toList.Pairwise (· < ·) ∧ windows.isIllegal 0x2F = true ∧
      windows.reserved.toList.Pairwise (· < ·) ∧
      (∀ entry ∈ windows.reserved, entry.IsUpperCase) ∧
      windows.isReserved (Text.ofString "con.txt") = true := by
  have hsystem : ofSystemName (ascii "Windows") = windows := by decide +kernel
  obtain ⟨hillegal, hreserved, hupper⟩ := hsystem ▸ tables_ofSystemName (ascii "Windows")
  have hlaw := windows.lookups_find_members
  have hname := hlaw.2 hreserved (fun _ => hupper) (Text.ofString "con.txt")
  refine ⟨hillegal, ?_, hreserved, hupper, ?_⟩
  · exact (hlaw.1 hillegal 0x2F).mpr (by decide +kernel)
  · exact hname.2.mpr (by decide +kernel)

end Profile

end LexicalPath
