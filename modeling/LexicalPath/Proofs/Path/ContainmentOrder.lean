import LexicalPath.Proofs.Path.Containment

/-!
# The order of directories

A directory comes first in what it contains and is shorter than that. So containment is a strict
order on all texts, be they normal paths or not. It has the shape of a forest: of two directories
around the same path one contains the other.
-/

namespace LexicalPath.Path

theorem closed_length_le (parent : Text) : (closed parent).length ≤ parent.length + 1 := by
  unfold closed
  split <;> simp

theorem contains_iff_shorter (parent child : Text) :
    contains parent child = true ↔
      parent ≠ [] ∧ parent.length < child.length ∧ closed parent <+: child := by
  rw [contains_eq_true_iff]
  constructor
  · rintro ⟨hparent, -, hne, hfront⟩
    have hstart : parent <+: child := (prefix_closed parent).trans hfront
    refine ⟨hparent, ?_, hfront⟩
    by_contra hle
    exact hne (hstart.eq_of_length_le (Nat.not_lt.mp hle))
  · rintro ⟨hparent, hlt, hfront⟩
    refine ⟨hparent, List.ne_nil_of_length_pos (Nat.zero_lt_of_lt hlt), ?_, hfront⟩
    rintro rfl
    exact Nat.lt_irrefl _ hlt

variable (a b c : Text)

theorem contains_trans (hab : contains a b = true) (hbc : contains b c = true) :
    contains a c = true := by
  rw [contains_iff_shorter] at hab hbc ⊢
  obtain ⟨ha, hlt, hfront⟩ := hab
  obtain ⟨-, hlt', hfront'⟩ := hbc
  refine ⟨ha, Nat.lt_trans hlt hlt', ?_⟩
  exact (hfront.trans (prefix_closed b)).trans hfront'

/-- **Containment is a strict order.** No text contains itself, no two contain each other, and what
is contained in a contained directory is contained. -/
theorem contains_strictOrder :
    contains a a = false ∧
      ¬ (contains a b = true ∧ contains b a = true) ∧
      (contains a b = true → contains b c = true → contains a c = true) := by
  refine ⟨?_, ?_, contains_trans a b c⟩
  · rw [Bool.eq_false_iff, Ne, contains_iff_shorter]
    exact fun h => Nat.lt_irrefl _ h.2.1
  · simp only [contains_iff_shorter]
    rintro ⟨⟨-, hlt, -⟩, -, hlt', -⟩
    exact Nat.lt_asymm hlt hlt'

theorem contains_strictOrder_root :
    contains [CodeUnit.slash] [CodeUnit.slash, CodeUnit.slash] = true ∧
      contains [CodeUnit.slash, CodeUnit.slash] [CodeUnit.slash, CodeUnit.slash, 0x61] = true ∧
      contains [CodeUnit.slash] [CodeUnit.slash, CodeUnit.slash, 0x61] = true := by
  have hab : contains [CodeUnit.slash] [CodeUnit.slash, CodeUnit.slash] = true := by decide
  have hbc : contains [CodeUnit.slash, CodeUnit.slash] [CodeUnit.slash, CodeUnit.slash, 0x61] =
      true := by decide
  exact ⟨hab, hbc, (contains_strictOrder _ _ _).2.2 hab hbc⟩

theorem contains_of_shorter (hac : contains a c = true) (hbc : contains b c = true)
    (hlt : a.length < b.length) : contains a b = true := by
  rw [contains_iff_shorter] at hac hbc ⊢
  obtain ⟨ha, -, hfront⟩ := hac
  obtain ⟨-, -, hfront'⟩ := hbc
  refine ⟨ha, hlt, ?_⟩
  exact List.prefix_of_prefix_length_le hfront ((prefix_closed b).trans hfront')
    (Nat.le_trans (closed_length_le a) hlt)

theorem contains_comparable (hac : contains a c = true) (hbc : contains b c = true) :
    a = b ∨ contains a b = true ∨ contains b a = true := by
  rcases Nat.lt_trichotomy a.length b.length with hlt | heq | hlt
  · exact Or.inr (Or.inl (contains_of_shorter a b c hac hbc hlt))
  · rw [contains_iff_shorter] at hac hbc
    have hstart : a <+: c := (prefix_closed a).trans hac.2.2
    have hstart' : b <+: c := (prefix_closed b).trans hbc.2.2
    left
    exact (List.prefix_of_prefix_length_le hstart hstart' heq.le).eq_of_length heq
  · exact Or.inr (Or.inr (contains_of_shorter b a c hbc hac hlt))

end LexicalPath.Path
