import LexicalPath.Path.Parts
import LexicalPath.Proofs.Failure
import LexicalPath.Proofs.Separators

/-!
# Extensions

A path has an extension if it ends with a dot and a text that holds neither a dot nor a separator.
That text may be empty, and then a path with an extension and one without any look alike to
whoever compares the text only. This sets the question for one of several extensions apart from
several questions for one extension.
-/

namespace LexicalPath.Path

open Text

/-! ## What an extension is -/

/-- The path ends with a dot and the extension `ext`. -/
def EndsWithExtension (path ext : Text) : Prop :=
  ∃ stem, path = stem ++ CodeUnit.dot :: ext ∧ CodeUnit.dot ∉ ext ∧ SeparatorFree ext

theorem extensionIdx?_of_ends (stem ext : Text) (hdot : CodeUnit.dot ∉ ext)
    (hfree : SeparatorFree ext) :
    extensionIdx? (stem ++ CodeUnit.dot :: ext) = some stem.length := by
  have hlast : lastIndexOf? (stem ++ CodeUnit.dot :: ext) CodeUnit.dot = some stem.length := by
    apply Search.last?_split (· == CodeUnit.dot) stem CodeUnit.dot ext (beq_self_eq_true _)
    intro u hu
    exact beq_false_of_ne fun hud => hdot (hud ▸ hu)
  have hback : Search.last? Separator.isUnit (CodeUnit.dot :: ext) = none := by
    rw [Search.last?_eq_none_iff, List.forall_mem_cons]
    exact ⟨Separator.isUnit_dot, hfree⟩
  unfold extensionIdx?
  rw [hlast, lastSeparatorIdx?, Search.last?_append, hback, Option.map_none, Option.none_or]
  cases hstem : Search.last? Separator.isUnit stem with
  | none => rfl
  | some separator =>
    have hlt : separator < stem.length := Search.last?_lt _ stem separator hstem
    exact if_neg (by omega)

theorem extensionIdx?_cases (path : Text) :
    (extensionIdx? path = none ∧ ∀ ext, ¬ EndsWithExtension path ext) ∨
      ∃ stem ext, path = stem ++ CodeUnit.dot :: ext ∧ CodeUnit.dot ∉ ext ∧ SeparatorFree ext ∧
        extensionIdx? path = some stem.length := by
  have hsound (hnone : extensionIdx? path = none) (ext : Text) : ¬ EndsWithExtension path ext := by
    rintro ⟨stem, rfl, hdot, hfree⟩
    rw [extensionIdx?_of_ends stem ext hdot hfree] at hnone
    cases hnone
  rcases Search.last?_cases (· == CodeUnit.dot) path with
    ⟨hnone, -⟩ | ⟨stem, d, ext, rfl, hd, hext, hlast⟩
  · have hidx : extensionIdx? path = none := by rw [extensionIdx?, lastIndexOf?, hnone]
    exact Or.inl ⟨hidx, hsound hidx⟩
  · obtain rfl : d = CodeUnit.dot := by simpa using hd
    have hdot : CodeUnit.dot ∉ ext := fun hmem => by simpa using hext _ hmem
    by_cases hfree : SeparatorFree ext
    · exact Or.inr ⟨stem, ext, rfl, hdot, hfree, extensionIdx?_of_ends stem ext hdot hfree⟩
    · have hidx : extensionIdx? (stem ++ CodeUnit.dot :: ext) = none := by
        rcases Search.last?_cases Separator.isUnit ext with
          ⟨-, hnone⟩ | ⟨dir, w, rest, rfl, hw, hrest, -⟩
        · exact absurd hnone hfree
        · unfold extensionIdx?
          rw [lastIndexOf?, hlast, show stem ++ CodeUnit.dot :: (dir ++ w :: rest) =
            (stem ++ CodeUnit.dot :: dir) ++ w :: rest by simp,
            lastSeparatorIdx?_split _ w rest hw hrest]
          exact if_pos (by simp)
      exact Or.inl ⟨hidx, hsound hidx⟩

theorem endsWithExtension_iff (path ext : Text) :
    EndsWithExtension path ext ↔ extensionIdx? path ≠ none ∧ extension path = ext := by
  constructor
  · rintro ⟨stem, rfl, hdot, hfree⟩
    simp [extension, extensionIdx?_of_ends stem ext hdot hfree]
  · rintro ⟨hsome, rfl⟩
    rcases extensionIdx?_cases path with ⟨hnone, -⟩ | ⟨stem, ext, hpath, hdot, hfree, hidx⟩
    · exact absurd hnone hsome
    · have hext : extension path = ext := by
        rw [extension, hidx, hpath, ← List.singleton_append, ← List.append_assoc]
        exact List.drop_left' (by simp)
      rw [hext]
      exact ⟨stem, hpath, hdot, hfree⟩

theorem extensionIdx?_eq_none_iff (path : Text) :
    extensionIdx? path = none ↔ ∀ ext, ¬ EndsWithExtension path ext := by
  rcases extensionIdx?_cases path with ⟨hnone, hno⟩ | ⟨stem, ext, hpath, hdot, hfree, hidx⟩
  · exact iff_of_true hnone hno
  · refine iff_of_false (by simp [hidx]) fun hno => hno ext ⟨stem, hpath, hdot, hfree⟩

theorem endsWithExtension_nil_iff (path : Text) :
    EndsWithExtension path [] ↔ path.getLast? = some CodeUnit.dot := by
  rw [List.getLast?_eq_some_iff]
  simp [EndsWithExtension, separatorFree_nil]

theorem EndsWithExtension.unique {path ext ext' : Text} (h : EndsWithExtension path ext)
    (h' : EndsWithExtension path ext') : ext = ext' := by
  rw [endsWithExtension_iff] at h h'
  exact h.2.symm.trans h'.2

/-! ## Asking for extensions -/

/-- What is asked of a path by a single extension: to have it, or to have none if it is empty. -/
def Answers (path ext : Text) : Prop :=
  if ext = [] then ∀ e, ¬ EndsWithExtension path e else EndsWithExtension path ext

theorem hasExtension_spec (path ext : Text) (hnul : CodeUnit.nul ∉ path) :
    ∃ answer, hasExtension path ext = .ok answer ∧ (answer = true ↔ Answers path ext) := by
  by_cases hempty : ext = []
  · refine ⟨(extensionIdx? path).isNone, ?_, ?_⟩
    · simp [hasExtension, clean_of_not_nul path hnul, hempty]
    · rw [Answers, if_pos hempty, ← extensionIdx?_eq_none_iff, Option.isNone_iff_eq_none]
  · refine ⟨extension path == ext, ?_, ?_⟩
    · simp [hasExtension, clean_of_not_nul path hnul, hempty]
    · rw [Answers, if_neg hempty, endsWithExtension_iff, beq_iff_eq]
      -- Without a dot the extension is the empty text, which is not the one that is asked for.
      refine ⟨fun h => ⟨fun hnone => hempty ?_, h⟩, And.right⟩
      rw [← h, extension, hnone]

/-- Several extensions are compared as texts, so the empty one stands for a path without a dot and
for one with a dot at its end. -/
theorem hasAnyExtension_spec (path : Text) (exts : List Text) (hnul : CodeUnit.nul ∉ path)
    (hexts : exts ≠ []) :
    ∃ answer, hasAnyExtension path exts = .ok answer ∧
      (answer = true ↔ (∃ ext ∈ exts, EndsWithExtension path ext) ∨
        [] ∈ exts ∧ ∀ e, ¬ EndsWithExtension path e) := by
  refine ⟨exts.contains (extension path), ?_, ?_⟩
  · simp [hasAnyExtension, clean_of_not_nul path hnul, hexts]
  · rw [List.contains_iff_mem, ← extensionIdx?_eq_none_iff]
    simp only [endsWithExtension_iff]
    by_cases hidx : extensionIdx? path = none
    · simp [extension, hidx]
    · simp [hidx]

theorem exists_answers_iff (path : Text) (exts : List Text) :
    (∃ ext ∈ exts, Answers path ext) ↔
      (∃ ext ∈ exts, ext ≠ [] ∧ EndsWithExtension path ext) ∨
        [] ∈ exts ∧ ∀ e, ¬ EndsWithExtension path e := by
  constructor
  · rintro ⟨ext, hmem, hext⟩
    unfold Answers at hext
    split at hext
    · next hempty => exact Or.inr ⟨hempty ▸ hmem, hext⟩
    · next hne => exact Or.inl ⟨ext, hmem, hne, hext⟩
  · rintro (⟨ext, hmem, hne, hext⟩ | ⟨hmem, hno⟩)
    · exact ⟨ext, hmem, by rwa [Answers, if_neg hne]⟩
    · exact ⟨[], hmem, by rwa [Answers, if_pos rfl]⟩

theorem hasExtension_eq_true_iff (path ext : Text) (hnul : CodeUnit.nul ∉ path) :
    hasExtension path ext = .ok true ↔ Answers path ext := by
  obtain ⟨answer, hanswer, hiff⟩ := hasExtension_spec path ext hnul
  rw [hanswer, Except.ok.injEq, hiff]

/-- **One of several extensions.** A path has one of several extensions exactly if it has one of
them by itself, except that a path with a dot at its end has the empty extension among several and
not by itself. -/
theorem hasAnyExtension_iff_single (path : Text) (exts : List Text)
    (hnul : CodeUnit.nul ∉ path) (hexts : exts ≠ []) :
    (∀ ext, ∃ answer, hasExtension path ext = .ok answer ∧ (answer = true ↔ Answers path ext)) ∧
      ∃ any, hasAnyExtension path exts = .ok any ∧
        ((any = true ↔ ∃ ext ∈ exts, hasExtension path ext = .ok true) ↔
          ¬ ([] ∈ exts ∧ path.getLast? = some CodeUnit.dot)) ∧
        ([] ∈ exts ∧ path.getLast? = some CodeUnit.dot →
          any = true ∧ ∀ ext ∈ exts, hasExtension path ext ≠ .ok true) := by
  obtain ⟨any, hany, hanyIff⟩ := hasAnyExtension_spec path exts hnul hexts
  have hslip (h : [] ∈ exts ∧ EndsWithExtension path []) :
      any = true ∧ ∀ ext ∈ exts, ¬ Answers path ext := by
    refine ⟨hanyIff.mpr (Or.inl ⟨[], h.1, h.2⟩), fun ext _ => ?_⟩
    unfold Answers
    split
    · exact fun hno => hno [] h.2
    · next hne => exact fun hext => hne (hext.unique h.2)
  simp only [hasExtension_eq_true_iff path _ hnul, ne_eq, ← endsWithExtension_nil_iff]
  refine ⟨fun ext => hasExtension_spec path ext hnul, any, hany, ?_, hslip⟩
  by_cases h : [] ∈ exts ∧ EndsWithExtension path []
  · obtain ⟨hyes, hno⟩ := hslip h
    refine iff_of_false (fun hiff => ?_) (not_not_intro h)
    obtain ⟨ext, hmem, hext⟩ := hiff.mp hyes
    exact hno ext hmem hext
  · refine iff_of_true ?_ h
    have hne (ext : Text) (hmem : ext ∈ exts) (hext : EndsWithExtension path ext) : ext ≠ [] := by
      rintro rfl
      exact h ⟨hmem, hext⟩
    rw [hanyIff, exists_answers_iff]
    apply or_congr_left
    constructor
    · rintro ⟨ext, hmem, hext⟩
      exact ⟨ext, hmem, hne ext hmem hext, hext⟩
    · rintro ⟨ext, hmem, -, hext⟩
      exact ⟨ext, hmem, hext⟩

theorem hasAnyExtension_of_dotted_directory :
    let path : Text := [0x61, CodeUnit.dot, 0x62, CodeUnit.slash, 0x63]
    let exts : List Text := [[0x62, CodeUnit.slash, 0x63], []]
    CodeUnit.nul ∉ path ∧ exts ≠ [] ∧ hasAnyExtension path exts = .ok true := by
  intro path exts
  have hnul : CodeUnit.nul ∉ path := by decide
  have hexts : exts ≠ [] := by decide
  obtain ⟨-, any, hany, hiff, -⟩ := hasAnyExtension_iff_single path exts hnul hexts
  have hyes : any = true := (hiff.mpr (by decide)).mpr ⟨[], by decide, rfl⟩
  exact ⟨hnul, hexts, hyes ▸ hany⟩

/-- The path `a.` has the empty extension among several, but not by itself. -/
theorem hasAnyExtension_of_final_dot :
    let path : Text := [0x61, CodeUnit.dot]
    CodeUnit.nul ∉ path ∧ hasAnyExtension path [[]] = .ok true ∧
      ¬ ∃ ext ∈ ([[]] : List Text), hasExtension path ext = .ok true := by
  intro path
  refine ⟨by decide, rfl, ?_⟩
  rintro ⟨ext, hmem, hext⟩
  obtain rfl := List.mem_singleton.mp hmem
  cases hext

end LexicalPath.Path
