import LexicalPath.Proofs.Path.Parts

/-!
# Prefixes as paths

The text of a prefix is a path of its own. It has the prefix of the path that it was cut from, and
nothing else is in it: a prefix shows where it ends without the help of what comes behind.
-/

namespace LexicalPath.Path

theorem anchor_form (path : Text) (p : Prefix) (h : Prefix.Form path p)
    (hnul : CodeUnit.nul ∉ path) :
    ∃ pre, anchor path = .ok (some pre) ∧ Prefix.Form pre p ∧ pre.length = p.length ∧
      CodeUnit.nul ∉ pre := by
  refine ⟨_, anchor_eq path p h hnul, ?_⟩
  split
  · next hlt =>
    have hform : Prefix.Form (path ++ [Separator.slash.unit]) p :=
      Prefix.form_append_virtual path [] p h hlt
    refine ⟨hform, ?_, by simpa using ⟨hnul, by decide⟩⟩
    rcases Prefix.form_length path p h with hle | ⟨hlength, -, -⟩
    · omega
    · simp [hlength]
  · next hle =>
    rw [Nat.not_lt] at hle
    refine ⟨Prefix.form_take path p h hle, List.length_take_of_le hle, ?_⟩
    exact fun hmem => hnul (List.mem_of_mem_take hmem)

theorem anchor_of_length_eq (pre : Text) (p : Prefix) (h : Prefix.Form pre p)
    (hlength : pre.length = p.length) (hnul : CodeUnit.nul ∉ pre) :
    anchor pre = .ok (some pre) := by
  rw [anchor_eq pre p h hnul, if_neg (by omega), List.take_of_length_le (by omega)]

/-- **Prefixes end by themselves.** The prefix of a path is a path with the same prefix and nothing
behind it, and to take its prefix changes nothing. -/
theorem anchor_selfDelimiting (path : Text) (p : Prefix) (hnul : CodeUnit.nul ∉ path)
    (h : Prefix.parse? path = some p) :
    ∃ pre, anchor path = .ok (some pre) ∧
      Prefix.length? pre = some pre.length ∧ some pre.length = Prefix.length? path ∧
      Prefix.parse? pre = Prefix.parse? path ∧ anchor pre = .ok (some pre) := by
  have hform := (Prefix.parse?_eq_some_iff_form path p).mp h
  obtain ⟨pre, hanchor, hpre, hlength, hnul'⟩ := anchor_form path p hform hnul
  refine ⟨pre, hanchor, ?_, ?_, ?_, anchor_of_length_eq pre p hpre hlength hnul'⟩
  · rw [Prefix.length?_of_form pre p hpre, hlength]
  · rw [Prefix.length?_of_form path p hform, hlength]
  · rw [h, Prefix.parse?_of_form pre p hpre]

theorem anchor_selfDelimiting_home :
    CodeUnit.nul ∉ [CodeUnit.tilde, 0x61] ∧
      Prefix.parse? [CodeUnit.tilde, 0x61] = some ⟨.homeNamedUser, 3⟩ ∧
      anchor [CodeUnit.tilde, 0x61] = .ok (some [CodeUnit.tilde, 0x61, CodeUnit.slash]) ∧
      Prefix.length? [CodeUnit.tilde, 0x61, CodeUnit.slash] = some 3 ∧
      Prefix.length? [CodeUnit.tilde, 0x61] = some 3 ∧
      Prefix.parse? [CodeUnit.tilde, 0x61, CodeUnit.slash] = some ⟨.homeNamedUser, 3⟩ ∧
      anchor [CodeUnit.tilde, 0x61, CodeUnit.slash] =
        .ok (some [CodeUnit.tilde, 0x61, CodeUnit.slash]) := by
  have hnul : CodeUnit.nul ∉ [CodeUnit.tilde, 0x61] := by decide
  have hprefix : Prefix.parse? [CodeUnit.tilde, 0x61] = some ⟨.homeNamedUser, 3⟩ := by decide
  have hanchor : anchor [CodeUnit.tilde, 0x61] =
      .ok (some [CodeUnit.tilde, 0x61, CodeUnit.slash]) := rfl
  obtain ⟨pre, hpre, hlength, hlength', hkind, hself⟩ :=
    anchor_selfDelimiting [CodeUnit.tilde, 0x61] _ hnul hprefix
  obtain rfl := Option.some.inj (Except.ok.inj (hanchor.symm.trans hpre))
  exact ⟨hnul, hprefix, hanchor, hlength, hlength'.symm, hkind.trans hprefix, hself⟩

end LexicalPath.Path
