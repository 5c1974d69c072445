import LexicalPath.Path.Equality
import LexicalPath.Proofs.Host.LetterCase
import LexicalPath.Proofs.Normal.Reference

/-!
# Normal forms in any case

Folding the letters of a path changes neither its prefix nor where its segments end, and it is all
the same whether a path is folded before or after it is normalized. So paths that differ only in
case have normal forms that differ only in case.
-/

namespace LexicalPath

/-! ## Separators -/

theorem Separator.isLetter_unit (sep : Separator) : sep.unit.isLetter = false := by
  cases sep <;> decide

theorem Separator.isUnit_upper (u : CodeUnit) : isUnit u.upper = isUnit u := by
  unfold isUnit
  rw [u.upper_beq _ (by decide), u.upper_beq _ (by decide)]

namespace Text

theorem separatorIdx?_fold (t : Text) (start : Nat) :
    t.fold.separatorIdx? start = t.separatorIdx? start := by
  unfold separatorIdx? Search.next? fold
  rw [← List.map_drop, List.findIdx?_map]
  congr 2
  exact funext Separator.isUnit_upper

theorem head?_isUnit_fold (t : Text) :
    t.fold.head?.any Separator.isUnit = t.head?.any Separator.isUnit := by
  cases t with
  | nil => rfl
  | cons u t => exact Separator.isUnit_upper u

theorem slice_fold (t : Text) (start count : Int) :
    t.fold.slice start count = (t.slice start count).fold := by
  simp only [slice, fold, ← List.map_drop, ← List.map_take]
  split <;> rfl

theorem fold_eq_iff (t s : Text) (hs : ∀ u ∈ s, u.isLetter = false) : t.fold = s ↔ t = s := by
  constructor
  · intro h
    have ht : ∀ u ∈ t, u.isLetter = false := by
      intro u hu
      rw [← u.isLetter_upper]
      apply hs
      rw [← h]
      exact List.mem_map_of_mem hu
    rw [← fold_of_not_isLetter t ht, h]
  · rintro rfl
    exact fold_of_not_isLetter t hs

theorem fold_beq (t s : Text) (hs : ∀ u ∈ s, u.isLetter = false) : (t.fold == s) = (t == s) := by
  rw [Bool.eq_iff_iff, beq_iff_eq, beq_iff_eq, fold_eq_iff t s hs]

theorem withSeparator_fold (t : Text) (sep : Separator) :
    t.fold.withSeparator sep = (t.withSeparator sep).fold := by
  unfold withSeparator replaceUnit fold
  rw [List.map_map, List.map_map]
  apply List.map_congr_left
  intro u _
  simp only [Function.comp_apply, CodeUnit.upper_eq_iff u _ sep.other.isLetter_unit]
  split
  · exact (sep.unit.upper_of_not_isLetter sep.isLetter_unit).symm
  · rfl

end Text

open Text

/-! ## Prefixes -/

namespace Prefix

theorem homeLength_fold (path : Text) : homeLength path.fold = homeLength path := by
  unfold homeLength
  rw [separatorIdx?_fold, length_fold]

theorem uncLength?_fold (path : Text) : uncLength? path.fold = uncLength? path := by
  unfold uncLength?
  simp only [separatorIdx?_fold, slice_fold, Host.isValid_fold]

theorem length?_fold (path : Text) : length? path.fold = length? path := by
  have hcolon : ∀ u : CodeUnit, u.upper = CodeUnit.colon ↔ u = CodeUnit.colon :=
    fun u => u.upper_eq_iff _ (by decide)
  have htilde : ∀ u : CodeUnit, u.upper = CodeUnit.tilde ↔ u = CodeUnit.tilde :=
    fun u => u.upper_eq_iff _ (by decide)
  have hslash : ∀ u : CodeUnit, u.upper = CodeUnit.slash ↔ u = CodeUnit.slash :=
    fun u => u.upper_eq_iff _ (by decide)
  match path with
  | [] => rfl
  | [u] =>
    simp only [fold, List.map_cons, List.map_nil, length?, hcolon, htilde, Separator.isUnit_upper]
  | u :: v :: rest =>
    have hhome := homeLength_fold (u :: v :: rest)
    have hunc := uncLength?_fold (u :: v :: rest)
    simp only [fold_cons] at hhome hunc ⊢
    simp only [length?, hcolon, htilde, hslash, Separator.isUnit_upper, CodeUnit.isLetter_upper,
      hhome, hunc, head?_isUnit_fold]

end Prefix

/-! ## Segments -/

namespace Segments

theorem isEmptyOrDot_fold (s : Text) : isEmptyOrDot s.fold = isEmptyOrDot s := by
  unfold isEmptyOrDot
  rw [isEmpty_fold, fold_beq s _ (by simp [CodeUnit.isLetter_dot])]

theorem isDotDot_fold (s : Text) : isDotDot s.fold = isDotDot s := by
  unfold isDotDot
  rw [fold_beq s _ (by simp [CodeUnit.isLetter_dot])]

theorem isDirectoryMark_fold (s : Text) : isDirectoryMark s.fold = isDirectoryMark s := by
  unfold isDirectoryMark
  rw [isEmptyOrDot_fold, isDotDot_fold]

theorem step_fold (place : List Text) (s : Text) :
    step (place.map fold) s.fold = (step place s).map (List.map fold) := by
  unfold step
  rw [isEmptyOrDot_fold, isDotDot_fold]
  split
  · rfl
  · split
    · cases place <;> rfl
    · rfl

theorem resolve_fold (place ss : List Text) :
    resolve (place.map fold) (ss.map fold) = (resolve place ss).map (List.map fold) := by
  induction ss generalizing place with
  | nil => simp [resolve]
  | cons s ss ih =>
    rw [List.map_cons, resolve, resolve, step_fold]
    cases step place s with
    | none => rfl
    | some place' => exact ih place'

theorem anchor_fold (sep : Separator) (start : Nat) (path : Text) :
    anchor sep start path.fold = (anchor sep start path).fold := by
  have htake : path.fold.take start = fold (path.take start) := List.map_take.symm
  unfold anchor
  rw [htake, withSeparator_fold, length_fold, fold_append]
  split
  · rw [fold_of_not_isLetter [sep.unit] (by simpa using sep.isLetter_unit)]
  · rfl

theorem join_fold (sep : Separator) (segments : List Text) :
    join sep (segments.map fold) = (join sep segments).fold := by
  induction segments with
  | nil => simp [join_nil, fold]
  | cons s ss ih =>
    cases ss with
    | nil => simp [join]
    | cons t ss =>
      rw [List.map_cons] at ih
      rw [List.map_cons, List.map_cons, join_cons_cons, ih, join_cons_cons, fold_append, fold_cons,
        sep.unit.upper_of_not_isLetter sep.isLetter_unit]

theorem remainder_fold (sep : Separator) (ending : Ending) (segments : List Text)
    (isDirectory : Bool) :
    remainder sep ending (segments.map fold) isDirectory =
      (remainder sep ending segments isDirectory).fold := by
  unfold remainder
  simp only [join_fold, fold_append, ne_eq, List.map_eq_nil_iff]
  split
  · rw [fold_of_not_isLetter [sep.unit] (by simpa using sep.isLetter_unit)]
  · rfl

theorem normalize?_fold (sep : Separator) (ending : Ending) (path : Text) :
    normalize? sep ending path.fold = (normalize? sep ending path).map fold := by
  rw [normalize?_eq, normalize?_eq, Prefix.length?_fold]
  cases Prefix.length? path with
  | none => rfl
  | some start =>
    have hdrop : path.fold.drop start = fold (path.drop start) := List.map_drop.symm
    have hsegments := resolve_fold [] ((path.drop start).splitOnP Separator.isUnit)
    have hlast : ∀ row : List Text,
        (row.map fold).getLast?.any isDirectoryMark = row.getLast?.any isDirectoryMark := by
      intro row
      rw [List.getLast?_map, Option.any_map]
      congr 1
      exact funext isDirectoryMark_fold
    rw [List.map_nil] at hsegments
    simp only [Option.bind_some, hdrop, splitOnP_fold _ Separator.isUnit_upper, hsegments, hlast,
      Option.map_map, Function.comp_def, anchor_fold, remainder_fold, fold_append]

end Segments

/-! ## Normal forms -/

namespace Path

theorem nul_mem_fold (path : Text) : CodeUnit.nul ∈ path.fold ↔ CodeUnit.nul ∈ path := by
  rw [← List.contains_iff_mem, contains_fold _ (by decide), List.contains_iff_mem]

theorem normalize_fold (sep : Separator) (ending : Ending) (path : Text) :
    normalize sep ending path.fold = (normalize sep ending path).map (Option.map fold) := by
  by_cases hnul : CodeUnit.nul ∈ path
  · unfold normalize
    rw [clean_of_nul path hnul, clean_of_nul path.fold ((nul_mem_fold path).mpr hnul)]
    rfl
  · rw [normalize_of_not_nul sep ending path hnul,
      normalize_of_not_nul sep ending path.fold (mt (nul_mem_fold path).mp hnul),
      Segments.normalize?_fold]
    rfl

/-- The two paths are refused together, have no normal form together, or have two that differ only
in case. -/
inductive SameButCase : Except PathError (Option Text) → Except PathError (Option Text) → Prop where
  | refused (e : PathError) : SameButCase (.error e) (.error e)
  | none : SameButCase (.ok none) (.ok none)
  | normal (r r' : Text) (h : r.equalFold r' = true) :
      SameButCase (.ok (some r)) (.ok (some r'))

theorem sameButCase_of_map_eq (x y : Except PathError (Option Text))
    (h : x.map (Option.map fold) = y.map (Option.map fold)) : SameButCase x y := by
  match x, y, h with
  | .error e, .error _, h =>
    obtain rfl := Except.error.inj h
    exact .refused e
  | .ok none, .ok none, _ => exact .none
  | .ok (some r), .ok (some r'), h =>
    apply SameButCase.normal
    exact beq_iff_eq.mpr (Option.some.inj (Except.ok.inj h))

section

variable (a b : Text) (h : a.fold = b.fold)

include h in
theorem length?_of_fold_eq : Prefix.length? a = Prefix.length? b := by
  rw [← Prefix.length?_fold a, h, Prefix.length?_fold]

include h in
theorem normalize_of_fold_eq (sep : Separator) (ending : Ending) :
    (normalize sep ending a).map (Option.map fold) =
      (normalize sep ending b).map (Option.map fold) := by
  rw [← normalize_fold, h, normalize_fold]

end

theorem equalNormalized_insensitive (a b r : Text)
    (h : SameButCase (normalize .system .kept a) (normalize .system .kept b))
    (hr : normalize .system .kept a = .ok (some r)) :
    equalNormalized .insensitive a b = .ok true := by
  unfold equalNormalized
  rw [hr] at h ⊢
  cases hb : normalize .system .kept b with
  | error e =>
    rw [hb] at h
    cases h
  | ok o =>
    rw [hb] at h
    cases h with
    | normal _ r' hequal => exact congrArg Except.ok hequal

/-- **Case.** Two paths that differ only in the case of letters have the same prefix length, and
whatever becomes of the one becomes of the other up to case. If they have normal forms, these are
equal wherever case does not matter, as the paths are. -/
theorem normalize_commutes_with_case (a b : Text) (h : a.equalFold b = true) :
    Prefix.length? a = Prefix.length? b ∧
      (∀ sep ending, SameButCase (normalize sep ending a) (normalize sep ending b)) ∧
      (equal .insensitive a b = true → ∀ r, normalize .system .kept a = .ok (some r) →
        equalNormalized .insensitive a b = .ok true) := by
  have hfold : a.fold = b.fold := beq_iff_eq.mp h
  have hsame : ∀ sep ending, SameButCase (normalize sep ending a) (normalize sep ending b) :=
    fun sep ending => sameButCase_of_map_eq _ _ (normalize_of_fold_eq a b hfold sep ending)
  refine ⟨length?_of_fold_eq a b hfold, hsame, ?_⟩
  intro _ r hr
  exact equalNormalized_insensitive a b r (hsame .system .kept) hr

theorem normalize_commutes_with_case_drive :
    (Text.ofString "C:/x/../Ab").equalFold (Text.ofString "c:/X/../aB") = true ∧
      Prefix.length? (Text.ofString "C:/x/../Ab") = Prefix.length? (Text.ofString "c:/X/../aB") ∧
      normalize .system .kept (Text.ofString "C:/x/../Ab") =
        .ok (some (Text.ofString "C:/Ab")) ∧
      equalNormalized .insensitive (Text.ofString "C:/x/../Ab") (Text.ofString "c:/X/../aB") =
        .ok true := by
  have hcase : (Text.ofString "C:/x/../Ab").equalFold (Text.ofString "c:/X/../aB") = true := by
    decide +kernel
  have hnormal : normalize .system .kept (Text.ofString "C:/x/../Ab") =
      .ok (some (Text.ofString "C:/Ab")) := by decide +kernel
  obtain ⟨hlength, -, hequal⟩ := normalize_commutes_with_case _ _ hcase
  exact ⟨hcase, hlength, hnormal, hequal hcase _ hnormal⟩

end Path

end LexicalPath
