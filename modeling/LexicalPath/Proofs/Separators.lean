import LexicalPath.Separator

/-!
# Texts cut at separators

A text without separators is what stands between two of them. Every other text is such a text, the
first separator and the rest, and it is also the text up to the last separator with such a text
behind it. Writing both separators as one changes no position.
-/

namespace LexicalPath

/-! ## Single units -/

namespace Separator

theorem isUnit_unit (sep : Separator) : isUnit sep.unit = true := by
  cases sep <;> decide

theorem isUnit_colon : isUnit CodeUnit.colon = false := by decide

theorem isUnit_tilde : isUnit CodeUnit.tilde = false := by decide

theorem isUnit_dot : isUnit CodeUnit.dot = false := by decide

theorem eq_unit_or_other (sep : Separator) (u : CodeUnit) (h : isUnit u = true) :
    u = sep.unit ∨ u = sep.other.unit := by
  rw [isUnit_iff] at h
  cases sep with
  | slash => exact h
  | backslash => exact h.symm

end Separator

theorem CodeUnit.isLetter_ne_unit (u : CodeUnit) (h : u.isLetter = true) :
    u ≠ colon ∧ u ≠ tilde ∧ Separator.isUnit u = false := by
  refine ⟨?_, ?_, ?_⟩
  · rintro rfl
    exact absurd h (by decide)
  · rintro rfl
    exact absurd h (by decide)
  · rw [Bool.eq_false_iff]
    intro hu
    rw [Separator.isUnit_iff] at hu
    rcases hu with rfl | rfl <;> exact absurd h (by decide)

theorem Separator.isUnit_ne (u : CodeUnit) (h : isUnit u = true) :
    u ≠ CodeUnit.colon ∧ u ≠ CodeUnit.tilde ∧ u ≠ CodeUnit.dot ∧ u.isLetter = false := by
  rw [isUnit_iff] at h
  rcases h with rfl | rfl <;> decide

namespace Text

/-! ## The first separator -/

def SeparatorFree (t : Text) : Prop := ∀ u ∈ t, Separator.isUnit u = false

theorem separatorFree_nil : SeparatorFree [] := by simp [SeparatorFree]

theorem separatorFree_cons (u : CodeUnit) (t : Text) :
    SeparatorFree (u :: t) ↔ Separator.isUnit u = false ∧ SeparatorFree t := by
  simp [SeparatorFree]

theorem separatorFree_or_split (t : Text) :
    SeparatorFree t ∨ ∃ name w rest, t = name ++ w :: rest ∧ SeparatorFree name ∧
      Separator.isUnit w = true := by
  induction t with
  | nil => exact Or.inl separatorFree_nil
  | cons u t ih =>
    by_cases hu : Separator.isUnit u = true
    · exact Or.inr ⟨[], u, t, rfl, separatorFree_nil, hu⟩
    have hu' : Separator.isUnit u = false := by simpa using hu
    rcases ih with h | ⟨name, w, rest, rfl, hname, hw⟩
    · exact Or.inl ((separatorFree_cons u t).mpr ⟨hu', h⟩)
    · exact Or.inr ⟨u :: name, w, rest, rfl, (separatorFree_cons u name).mpr ⟨hu', hname⟩, hw⟩

theorem findIdx?_separator (name : Text) (w : CodeUnit) (rest : Text) (hname : SeparatorFree name)
    (hw : Separator.isUnit w = true) :
    (name ++ w :: rest).findIdx? Separator.isUnit = some name.length := by
  have hnone : name.findIdx? Separator.isUnit = none := by
    rw [List.findIdx?_eq_none_iff]
    exact hname
  rw [List.findIdx?_append, hnone, List.findIdx?_cons, if_pos hw]
  simp

theorem separatorIdx?_split (front name : Text) (w : CodeUnit) (rest : Text)
    (hname : SeparatorFree name) (hw : Separator.isUnit w = true) :
    separatorIdx? (front ++ (name ++ w :: rest)) front.length =
      some (front.length + name.length) := by
  unfold separatorIdx? Search.next?
  rw [List.drop_left, findIdx?_separator name w rest hname hw]
  simp [Nat.add_comm]

theorem separatorIdx?_eq_none (front name : Text) (hname : SeparatorFree name) :
    separatorIdx? (front ++ name) front.length = none := by
  unfold separatorIdx? Search.next?
  rw [List.drop_left, Option.map_eq_none_iff, List.findIdx?_eq_none_iff]
  exact hname

/-! ## The last separator -/

theorem endsWithSeparator_of_separatorFree (t : Text) (h : SeparatorFree t) :
    t.endsWithSeparator = false := by
  unfold endsWithSeparator
  cases hlast : t.getLast? with
  | none => rfl
  | some u => exact h u (List.mem_of_getLast? hlast)

theorem lastSeparatorIdx?_split (dir : Text) (w : CodeUnit) (rest : Text)
    (hw : Separator.isUnit w = true) (hrest : SeparatorFree rest) :
    lastSeparatorIdx? (dir ++ w :: rest) = some dir.length :=
  Search.last?_split Separator.isUnit dir w rest hw hrest

theorem lastSeparatorIdx?_of_separatorFree (t : Text) (h : SeparatorFree t) :
    t.lastSeparatorIdx? = none :=
  (Search.last?_eq_none_iff Separator.isUnit t).mpr h

theorem separatorFree_or_lastSplit (t : Text) :
    SeparatorFree t ∨ ∃ dir w rest, t = dir ++ w :: rest ∧ Separator.isUnit w = true ∧
      SeparatorFree rest := by
  rcases Search.last?_cases Separator.isUnit t with ⟨-, h⟩ | ⟨dir, w, rest, ht, hw, hrest, -⟩
  · exact Or.inl h
  · exact Or.inr ⟨dir, w, rest, ht, hw, hrest⟩

/-! ## One separator for both -/

theorem withSeparator_append (s t : Text) (sep : Separator) :
    withSeparator (s ++ t) sep = s.withSeparator sep ++ t.withSeparator sep :=
  List.map_append

theorem withSeparator_length (t : Text) (sep : Separator) :
    (t.withSeparator sep).length = t.length := List.length_map _

theorem withSeparator_cons_separator (u : CodeUnit) (t : Text) (sep : Separator)
    (h : Separator.isUnit u = true) :
    withSeparator (u :: t) sep = sep.unit :: t.withSeparator sep := by
  rcases sep.eq_unit_or_other u h with rfl | rfl
  · simp [withSeparator, replaceUnit]
  · simp [withSeparator, replaceUnit]

theorem withSeparator_cons_other (u : CodeUnit) (t : Text) (sep : Separator)
    (h : Separator.isUnit u = false) :
    withSeparator (u :: t) sep = u :: t.withSeparator sep := by
  have hne : u ≠ sep.other.unit := by
    rintro rfl
    rw [Separator.isUnit_unit] at h
    cases h
  simp [withSeparator, replaceUnit, hne]

theorem withSeparator_of_separatorFree (t : Text) (sep : Separator) (h : SeparatorFree t) :
    t.withSeparator sep = t := by
  induction t with
  | nil => rfl
  | cons u t ih =>
    rw [separatorFree_cons] at h
    rw [withSeparator_cons_other u t sep h.1, ih h.2]

theorem withSeparator_concat (t : Text) (w : CodeUnit) (sep : Separator) (ht : SeparatorFree t)
    (hw : Separator.isUnit w = true) : withSeparator (t ++ [w]) sep = t ++ [sep.unit] := by
  rw [withSeparator_append, withSeparator_of_separatorFree t sep ht,
    withSeparator_cons_separator w [] sep hw]
  rfl

theorem withSeparator_withSeparator (t : Text) (sep : Separator) :
    (t.withSeparator sep).withSeparator sep = t.withSeparator sep := by
  induction t with
  | nil => rfl
  | cons u t ih =>
    cases hu : Separator.isUnit u with
    | true =>
      rw [withSeparator_cons_separator u t sep hu,
        withSeparator_cons_separator _ _ sep sep.isUnit_unit, ih]
    | false =>
      rw [withSeparator_cons_other u t sep hu, withSeparator_cons_other _ _ sep hu, ih]

theorem rewritten_eq_unit_iff (sep : Separator) (u : CodeUnit) :
    (if u = sep.other.unit then sep.unit else u) = sep.unit ↔ Separator.isUnit u = true := by
  constructor
  · intro h
    split at h
    · next hu =>
      rw [hu]
      exact sep.other.isUnit_unit
    · rw [h]
      exact sep.isUnit_unit
  · intro h
    rcases sep.eq_unit_or_other u h with rfl | rfl <;> simp

theorem withSeparator_getLast? (t : Text) (sep : Separator) :
    (t.withSeparator sep).getLast? = some sep.unit ↔ t.endsWithSeparator = true := by
  unfold withSeparator replaceUnit endsWithSeparator
  rw [List.getLast?_map]
  cases t.getLast? with
  | none => simp
  | some u => simp [rewritten_eq_unit_iff sep u]

end Text

end LexicalPath
