import LexicalPath.Normal.Basic
import LexicalPath.Proofs.Normal.Reference
import LexicalPath.Proofs.Text.WellFormed

/-!
# Normal forms are well-formed

The cuts of a path are at its separators or behind the colon of a drive, and so never between the
halves of a surrogate pair. What is put together again from such pieces is as well-formed as the
path.
-/

namespace LexicalPath

open Text

/-! ## Pieces of texts -/

namespace Text

theorem isWellFormed_append_iff (s t : Text) (h : ¬ SplitsPair s t) :
    (s ++ t).isWellFormed = true ↔ s.isWellFormed = true ∧ t.isWellFormed = true := by
  simp only [isWellFormed_iff, codePoints_append s t h, List.forall_mem_append]

theorem not_splitsPair_of_isWellFormed (s t : Text) (hs : s.isWellFormed = true) :
    ¬ SplitsPair s t := by
  rintro ⟨hlast, -⟩
  obtain ⟨u, hu, hhigh⟩ := (Option.any_eq_true _ _).mp hlast
  obtain ⟨init, rfl⟩ := List.getLast?_eq_some_iff.mp hu
  rw [isWellFormed_iff, codePoints_concat_high init u hhigh, List.forall_mem_append] at hs
  have hsurrogate := hs.2 u.toNat (List.mem_singleton.mpr rfl)
  rw [CodeUnit.isHighSurrogate_iff] at hhigh
  rw [← Bool.not_eq_true, CodePoint.isSurrogate_iff] at hsurrogate
  omega

theorem isWellFormed_append (s t : Text) (hs : s.isWellFormed = true) (ht : t.isWellFormed = true) :
    (s ++ t).isWellFormed = true :=
  (isWellFormed_append_iff s t (not_splitsPair_of_isWellFormed s t hs)).mpr ⟨hs, ht⟩

theorem isWellFormed_append_cons (s : Text) (u : CodeUnit) (t : Text) (hu : u.isSurrogate = false) :
    (s ++ u :: t).isWellFormed = true ↔ s.isWellFormed = true ∧ t.isWellFormed = true := by
  rw [CodeUnit.isSurrogate_eq_or, Bool.or_eq_false_iff] at hu
  have hfront : ¬ SplitsPair s (u :: t) := by simp [SplitsPair, hu.2]
  have hback : ¬ SplitsPair [u] t := by simp [SplitsPair, hu.1]
  have hunit : isWellFormed [u] = true := by
    simp [isWellFormed, malformedIdx?, CodeUnit.isSurrogate_eq_or, hu]
  rw [isWellFormed_append_iff s _ hfront, ← List.singleton_append,
    isWellFormed_append_iff [u] t hback]
  simp [hunit]

end Text

theorem Separator.isSurrogate_unit (sep : Separator) : sep.unit.isSurrogate = false := by
  cases sep <;> decide

theorem Separator.isSurrogate_of_isUnit (u : CodeUnit) (h : isUnit u = true) :
    u.isSurrogate = false := by
  rcases (isUnit_iff u).mp h with rfl | rfl <;> decide

/-! ## Segments -/

namespace Segments

theorem isWellFormed_closed (sep : Separator) (segments : List Text) :
    (closed sep segments).isWellFormed = true ↔ ∀ s ∈ segments, s.isWellFormed = true := by
  induction segments with
  | nil => simp [closed_nil, isWellFormed, malformedIdx?]
  | cons s ss ih =>
    rw [closed_cons, isWellFormed_append_cons s _ _ sep.isSurrogate_unit, ih, List.forall_mem_cons]

theorem isWellFormed_splitOnP (t : Text) :
    t.isWellFormed = true ↔ ∀ s ∈ t.splitOnP Separator.isUnit, isWellFormed s = true := by
  induction hlen : t.length using Nat.strong_induction_on generalizing t with
  | _ n ih =>
    rcases separatorFree_or_split t with hfree | ⟨name, w, rest, rfl, hname, hw⟩
    · rw [List.splitOnP_eq_singleton hfree, List.forall_mem_singleton]
    · have hshort : rest.length < n := by
        rw [← hlen, List.length_append, List.length_cons]
        omega
      rw [List.splitOnP_append_cons_of_forall_mem hname _ hw, List.forall_mem_cons,
        isWellFormed_append_cons name w rest (Separator.isSurrogate_of_isUnit w hw),
        ih rest.length hshort rest rfl]

theorem isWellFormed_withSeparator (t : Text) (sep : Separator) :
    (t.withSeparator sep).isWellFormed = true ↔ t.isWellFormed = true := by
  have hclosed := isWellFormed_closed sep (t.splitOnP Separator.isUnit)
  rw [closed_splitOnP, isWellFormed_append_cons _ _ _ sep.isSurrogate_unit,
    ← isWellFormed_splitOnP] at hclosed
  simpa [isWellFormed, malformedIdx?] using hclosed

theorem isWellFormed_join (sep : Separator) (segments : List Text)
    (h : ∀ s ∈ segments, s.isWellFormed = true) : (join sep segments).isWellFormed = true := by
  by_cases hne : segments = []
  · rw [hne, join_nil]
    rfl
  · rw [← isWellFormed_closed sep, ← join_append_unit sep segments hne,
      isWellFormed_append_cons _ _ _ sep.isSurrogate_unit] at h
    exact h.1

theorem isWellFormed_remainder (sep : Separator) (ending : Ending) (segments : List Text)
    (isDirectory : Bool) (h : ∀ s ∈ segments, s.isWellFormed = true) :
    (remainder sep ending segments isDirectory).isWellFormed = true := by
  unfold remainder
  apply isWellFormed_append _ _ (isWellFormed_join sep segments h)
  split
  · cases sep <;> decide
  · rfl

theorem not_splitsPair_cut (path : Text) (p : Prefix) (h : Prefix.Form path p) :
    ¬ SplitsPair (path.take p.length) (path.drop p.length) := by
  by_cases hle : p.length ≤ path.length
  · rintro ⟨hlast, -⟩
    rcases Prefix.form_cases path p h hle with ⟨-, htake, -⟩ | ⟨-, ⟨l, htake, -⟩, -⟩ | ⟨-, hends⟩
    · simp [htake] at hlast
    · rw [htake] at hlast
      exact absurd hlast (by simp; decide)
    · obtain ⟨u, hu, hunit⟩ := (Option.any_eq_true _ _).mp hends
      have hsurrogate := Separator.isSurrogate_of_isUnit u hunit
      rw [CodeUnit.isSurrogate_eq_or, Bool.or_eq_false_iff] at hsurrogate
      rw [hu, Option.any_some, hsurrogate.1] at hlast
      cases hlast
  · rw [List.drop_eq_nil_of_le (by omega)]
    exact not_splitsPair_nil_right _

theorem isWellFormed_result (sep : Separator) (ending : Ending) (path : Text) (p : Prefix)
    (segments : List Text) (isDirectory : Bool) (h : Prefix.Form path p)
    (hsegments : resolve [] ((path.drop p.length).splitOnP Separator.isUnit) = some segments)
    (hpath : path.isWellFormed = true) :
    (anchor sep p.length path ++ remainder sep ending segments isDirectory).isWellFormed = true := by
  rw [← List.take_append_drop p.length path,
    isWellFormed_append_iff _ _ (not_splitsPair_cut path p h)] at hpath
  obtain ⟨htake, hdrop⟩ := hpath
  apply isWellFormed_append
  · unfold anchor
    apply isWellFormed_append _ _ ((isWellFormed_withSeparator _ sep).mpr htake)
    split
    · cases sep <;> decide
    · rfl
  · rw [isWellFormed_splitOnP] at hdrop
    apply isWellFormed_remainder
    exact resolve_forall (fun s => s.isWellFormed = true) [] _ segments hsegments (by simp)
      fun s hs _ => hdrop s hs

end Segments

/-! ## Results -/

namespace Path

theorem isWellFormed_normalize (sep : Separator) (ending : Ending) (path r : Text)
    (h : normalize sep ending path = .ok (some r)) (hpath : path.isWellFormed = true) :
    r.isWellFormed = true := by
  obtain ⟨-, start, segments, hstart, hsegments, rfl⟩ :=
    (normalize_eq_some_iff sep ending path r).mp h
  obtain ⟨kind, hform⟩ := (Prefix.length?_eq_some_iff_form path start).mp hstart
  exact Segments.isWellFormed_result sep ending path ⟨kind, start⟩ segments _ hform hsegments hpath

theorem isWellFormed_append_path (base path : Text) (hbase : base.isWellFormed = true)
    (hpath : path.isWellFormed = true) : (append base path).isWellFormed = true := by
  unfold append
  split
  · exact isWellFormed_append base path hbase hpath
  · exact (isWellFormed_append_cons base _ path Separator.slash.isSurrogate_unit).mpr ⟨hbase, hpath⟩

theorem isWellFormed_of_join (base path r : Text) (h : Path.join base path = .ok (some r))
    (hbase : base.isWellFormed = true) (hpath : path.isWellFormed = true) :
    r.isWellFormed = true := by
  unfold Path.join at h
  split at h
  · cases h
  · split at h
    · exact isWellFormed_normalize _ _ _ r h hpath
    · exact isWellFormed_normalize _ _ _ r h (isWellFormed_append_path base path hbase hpath)

end Path

end LexicalPath
