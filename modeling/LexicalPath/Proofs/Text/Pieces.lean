import LexicalPath.Text.Search
import Mathlib.Data.List.Infix

/-!
# Pieces of a sequence

A sequence is cut into pieces at the elements that separate them, or in two at the first place where
a block of elements stands.
-/

namespace LexicalPath

variable {α : Type}

/-! ## Pieces between separating elements -/

theorem not_of_mem_splitOnP (p : α → Bool) (l : List α) :
    ∀ piece ∈ l.splitOnP p, ∀ a ∈ piece, p a = false := by
  induction l with
  | nil => simp
  | cons a l ih =>
    obtain ⟨first, others, hsplit⟩ := List.exists_cons_of_ne_nil (List.splitOnP_ne_nil p l)
    rw [hsplit, List.forall_mem_cons] at ih
    rw [List.splitOnP_cons_eq_if_modifyHead, hsplit]
    split
    · rw [List.forall_mem_cons, List.forall_mem_cons]
      exact ⟨by simp, ih⟩
    · next ha =>
      rw [List.modifyHead_cons, List.forall_mem_cons, List.forall_mem_cons]
      exact ⟨⟨by simpa using ha, ih.1⟩, ih.2⟩

theorem exists_mem_splitOnP (p : α → Bool) (l : List α) (a : α) (ha : a ∈ l) (hp : p a = false) :
    ∃ piece ∈ l.splitOnP p, a ∈ piece := by
  induction l with
  | nil => cases ha
  | cons b l ih =>
    obtain ⟨first, others, hsplit⟩ := List.exists_cons_of_ne_nil (List.splitOnP_ne_nil p l)
    rw [hsplit] at ih
    rw [List.splitOnP_cons_eq_if_modifyHead, hsplit]
    rcases List.mem_cons.mp ha with rfl | ha
    · rw [hp, List.modifyHead_cons]
      exact ⟨a :: first, List.mem_cons_self, List.mem_cons_self⟩
    · obtain ⟨piece, hpiece, hmem⟩ := ih ha
      split
      · exact ⟨piece, List.mem_cons_of_mem _ hpiece, hmem⟩
      · rcases List.mem_cons.mp hpiece with rfl | hpiece
        · exact ⟨b :: piece, List.mem_cons_self, List.mem_cons_of_mem b hmem⟩
        · exact ⟨piece, List.mem_cons_of_mem _ hpiece, hmem⟩

/-! ## The first place of a block -/

namespace Search

variable [BEq α] [LawfulBEq α]

theorem block?_split (block l : List α) (i : Nat) (h : block? block l = some i) :
    ∃ front back, l = front ++ block ++ back ∧ front.length = i ∧
      ∀ front' back', l = front' ++ block ++ back' → front.length ≤ front'.length := by
  induction l generalizing i with
  | nil =>
    unfold block? at h
    split at h
    · next hempty =>
      obtain rfl : block = [] := by simpa using hempty
      exact ⟨[], [], rfl, Option.some.inj h, by simp⟩
    · cases h
  | cons a l ih =>
    unfold block? at h
    split at h
    · next hstart =>
      obtain ⟨back, hback⟩ := List.isPrefixOf_iff_prefix.mp hstart
      exact ⟨[], back, hback.symm, Option.some.inj h, by simp⟩
    · next hstart =>
      obtain ⟨j, hj, rfl⟩ := Option.map_eq_some_iff.mp h
      obtain ⟨front, back, rfl, rfl, hfirst⟩ := ih j hj
      refine ⟨a :: front, back, rfl, rfl, ?_⟩
      intro front' back' hsplit
      cases front' with
      | nil =>
        rw [List.nil_append] at hsplit
        rw [hsplit, List.isPrefixOf_iff_prefix] at hstart
        exact absurd (List.prefix_append block back') hstart
      | cons b front' =>
        have hlength := hfirst front' back' (List.cons.inj hsplit).2
        simpa using hlength

theorem block?_of_first (block front back : List α)
    (hfirst : ∀ front' back', front ++ block ++ back = front' ++ block ++ back' →
      front.length ≤ front'.length) :
    block? block (front ++ block ++ back) = some front.length := by
  have hsome : (block? block (front ++ block ++ back)).isSome :=
    (block?_isSome_iff block _).mpr ⟨front, back, rfl⟩
  obtain ⟨i, hi⟩ := Option.isSome_iff_exists.mp hsome
  obtain ⟨front', back', hsplit, hlength, hfirst'⟩ := block?_split block _ i hi
  rw [hi, ← hlength, Nat.le_antisymm (hfirst' front back rfl) (hfirst front' back' hsplit)]

end Search

end LexicalPath
