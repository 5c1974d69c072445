import LexicalPath.Proofs.Normal.Anchor
import LexicalPath.Proofs.Path.Join

/-!
# Joining behind a prefix

A relative path that is put behind a path with a prefix starts from the same place, and its steps
are taken after the steps of that path. Only a bare drive does not keep its prefix, because the
separator that is put in between makes it the root of the drive.
-/

namespace LexicalPath.Path

open Text Segments

/-! ## The separator in between -/

/-- What is put behind a path before another one is. -/
def gap (base : Text) : Text := if base.endsWithSeparator then [] else [Separator.slash.unit]

theorem append_eq_gap (base path : Text) : append base path = base ++ gap base ++ path := by
  unfold append gap
  split <;> simp

theorem gap_of_closed (base : Text) (h : base.endsWithSeparator = true) : gap base = [] := if_pos h

theorem gap_of_open (base : Text) (h : base.endsWithSeparator = false) :
    gap base = [Separator.slash.unit] := if_neg (by simp [h])

theorem gap_drop (base : Text) (n : Nat) (h : n < base.length) : gap (base.drop n) = gap base := by
  unfold gap endsWithSeparator
  rw [List.getLast?_drop, if_neg (Nat.not_le.mpr h)]

theorem anchor_gap (base : Text) :
    Segments.anchor .system (base ++ gap base).length base =
      withSeparator (base ++ gap base) .system := by
  cases hends : base.endsWithSeparator with
  | true =>
    rw [gap_of_closed base hends, List.append_nil, anchor_of_le _ _ _ (Nat.le_refl _), List.take_length]
  | false =>
    rw [gap_of_open base hends, anchor_of_lt _ _ _ (by simp), withSeparator_append]
    rfl

/-! ## The prefix of the whole -/

/-- The prefix that a path with the prefix `p` has as soon as another one stands behind it. A bare
drive gets another prefix, the root of the drive. -/
def closedPrefix (base : Text) (p : Prefix) : Prefix :=
  if p.kind = .driveRelative ∧ base.length = p.length then ⟨.driveAbsolute, p.length + 1⟩ else p

theorem closedPrefix_of_length (base : Text) (p : Prefix) (h : base.length ≠ p.length) :
    closedPrefix base p = p := if_neg fun hbare => h hbare.2

theorem closedPrefix_of_kind (base : Text) (p : Prefix) (h : p.kind ≠ .driveRelative) :
    closedPrefix base p = p := if_neg fun hbare => h hbare.1

theorem closedPrefix_bareDrive (base : Text) (p : Prefix) (hkind : p.kind = .driveRelative)
    (hlength : base.length = p.length) : closedPrefix base p = ⟨.driveAbsolute, p.length + 1⟩ :=
  if_pos ⟨hkind, hlength⟩

theorem closedPrefix_length_pos (base : Text) (p : Prefix) (h : 0 < p.length) :
    0 < (closedPrefix base p).length := by
  unfold closedPrefix
  split
  · exact Nat.succ_pos p.length
  · exact h

theorem form_append_whole (base path : Text) (p : Prefix) (h : Prefix.Form base p)
    (hpos : 0 < p.length) (hle : base.length ≤ p.length) (hpath : Prefix.Form path ⟨.relative, 0⟩) :
    Prefix.Form (append base path) (closedPrefix base p) ∧
      (closedPrefix base p).length = (base ++ gap base).length := by
  rw [append_eq_gap]
  rcases Prefix.form_length base p h with hfit | ⟨hlength, -, hfree⟩
  · have hcases := Prefix.form_cases base p h hfit
    rw [List.take_of_length_le hle] at hcases
    rcases hcases with ⟨-, rfl, -⟩ | ⟨hkind, ⟨l, rfl, hl⟩, -⟩ | ⟨hkind, hends⟩
    · exact absurd hpos (Nat.not_lt.mpr hfit)
    · have hlength : p.length = 2 := Nat.le_antisymm hfit hle
      rw [closedPrefix_bareDrive [l, CodeUnit.colon] p hkind hlength.symm, hlength]
      exact ⟨.driveAbsolute l _ path hl (by decide), rfl⟩
    · rw [closedPrefix_of_kind base p hkind, gap_of_closed base hends, List.append_nil]
      exact ⟨Prefix.form_append base path p h hpos hfit fun _ => hpath, Nat.le_antisymm hfit hle⟩
  · rw [closedPrefix_of_length base p (by omega),
      gap_of_open base (endsWithSeparator_of_separatorFree base hfree), List.append_assoc]
    exact ⟨Prefix.form_append_virtual base path p h (by omega), by simp [hlength]⟩

/-! ## The steps of the whole -/

theorem splitOnP_append (rest path : Text) (hne : rest ≠ []) :
    ∃ row, (append rest path).splitOnP Separator.isUnit = row ++ path.splitOnP Separator.isUnit ∧
      row.filter (!·.isEmpty) = (rest.splitOnP Separator.isUnit).filter (!·.isEmpty) := by
  cases hends : rest.endsWithSeparator with
  | false =>
    rw [append_of_open rest path hends, List.splitOnP_append_cons rest path (by decide)]
    exact ⟨_, rfl, rfl⟩
  | true =>
    obtain ⟨init, w, rfl⟩ := (List.eq_nil_or_concat' rest).resolve_left hne
    have hw : Separator.isUnit w = true := by simpa [endsWithSeparator] using hends
    rw [append_of_closed _ path hends, List.append_assoc, List.singleton_append,
      List.splitOnP_append_cons init path hw, splitOnP_append_separator init w hw]
    exact ⟨_, rfl, by simp⟩

/-- The steps of a path behind its prefix, and after them those of a relative path. -/
def steps (base : Text) (start : Nat) (path : Text) : List Text :=
  (base.drop start).splitOnP Separator.isUnit ++ path.splitOnP Separator.isUnit

/-- The whole starts from the place `q`, as its first part does, and takes the steps of both. -/
structure Continues (base path : Text) (start : Nat) (q : Prefix) : Prop where
  form : Prefix.Form (append base path) q
  anchor_eq : Segments.anchor .system q.length (append base path) =
    Segments.anchor .system q.length base
  row : ∃ row, ((append base path).drop q.length).splitOnP Separator.isUnit =
      row ++ path.splitOnP Separator.isUnit ∧
    row.filter (!·.isEmpty) = ((base.drop start).splitOnP Separator.isUnit).filter (!·.isEmpty)

theorem continues (base path : Text) (p : Prefix) (h : Prefix.Form base p) (hpos : 0 < p.length)
    (hpath : Prefix.Form path ⟨.relative, 0⟩) :
    Continues base path p.length (closedPrefix base p) := by
  rcases Nat.lt_or_ge p.length base.length with hlt | hge
  · have hle := Nat.le_of_lt hlt
    have hne : base.drop p.length ≠ [] := by
      rw [Ne, List.drop_eq_nil_iff]
      omega
    have hdrop : (append base path).drop p.length = append (base.drop p.length) path := by
      rw [append_eq_gap, append_eq_gap, gap_drop base _ hlt, List.append_assoc, List.append_assoc,
        List.drop_append_of_le_length hle]
    rw [closedPrefix_of_length base p (by omega)]
    refine ⟨?_, ?_, ?_⟩
    · rw [append_eq_gap, List.append_assoc]
      exact Prefix.form_append base _ p h hpos hle fun hge => absurd hlt (Nat.not_lt.mpr hge)
    · have hfront := (prefix_append base path).length_le
      rw [anchor_of_le _ _ _ (Nat.le_trans hle hfront), anchor_of_le _ _ _ hle, append_eq_gap,
        List.append_assoc, List.take_append_of_le_length hle]
    · rw [hdrop]
      exact splitOnP_append _ path hne
  · obtain ⟨hform, hlength⟩ := form_append_whole base path p h hpos hge hpath
    refine ⟨hform, ?_, [], ?_, ?_⟩
    · rw [hlength, anchor_gap, append_eq_gap, anchor_of_le _ _ _ (by simp), List.take_left]
    · rw [hlength, append_eq_gap, List.drop_left, List.nil_append]
    · rw [List.drop_of_length_le hge]
      rfl

section

variable (base path : Text) (start : Nat) (q : Prefix) (h : Continues base path start q)

include h

theorem Continues.resolve_eq :
    resolve [] (((append base path).drop q.length).splitOnP Separator.isUnit) =
      resolve [] (steps base start path) := by
  obtain ⟨row, hrow, hsame⟩ := h.row
  rw [hrow, steps, ← resolve_filter_nonempty, List.filter_append, hsame, ← List.filter_append,
    resolve_filter_nonempty]

theorem Continues.getLast?_eq :
    (((append base path).drop q.length).splitOnP Separator.isUnit).getLast? =
      (path.splitOnP Separator.isUnit).getLast? := by
  obtain ⟨row, hrow, -⟩ := h.row
  rw [hrow, List.getLast?_append_of_ne_nil _ (List.splitOnP_ne_nil _ path)]

theorem Continues.normalize?_eq :
    normalize? .system .kept (append base path) =
      (resolve [] (steps base start path)).map fun segments =>
        Segments.anchor .system q.length base ++ remainder .system .kept segments
          ((path.splitOnP Separator.isUnit).getLast?.any isDirectoryMark) := by
  rw [Segments.normalize?_eq, Prefix.length?_of_form _ q h.form, Option.bind_some, h.resolve_eq,
    h.getLast?_eq, h.anchor_eq]

/-- A place that is told by its prefix is found again in front of the segments that remain. -/
theorem Continues.parse?_result (hpos : 0 < q.length) (segments : List Text) (isDirectory : Bool)
    (hsegments : resolve [] (steps base start path) = some segments) :
    Prefix.parse? (Segments.anchor .system q.length base ++
      remainder .system .kept segments isDirectory) = some q := by
  rw [← h.resolve_eq] at hsegments
  have hhead := remainder_head? .system .kept segments isDirectory
    (remaining_segments _ segments hsegments)
  rw [Prefix.parse?_eq_some_iff_form, ← h.anchor_eq]
  exact (form_anchor_iff .system _ _ q h.form hhead).mpr (reanchors_slash _ _ q h.form hpos)

end

/-! ## Joining -/

/-- **Joins behind a prefix.** The steps of a relative path are taken after those of the path in
front of it, from the same place. Nothing comes of it if they lead out of the place, and otherwise
the place is followed by the segments that remain, with a separator behind them if the relative path
names a directory. A bare drive is taken for the root of the drive. -/
theorem join_from_anchor (base path : Text) (p : Prefix) (hbase : CodeUnit.nul ∉ base)
    (hpath : CodeUnit.nul ∉ path) (hparse : Prefix.parse? base = some p) (hpos : 0 < p.length)
    (hrelative : Prefix.length? path = some 0) :
    (join base path = .ok none ↔ resolve [] (steps base p.length path) = none) ∧
      ∀ segments, resolve [] (steps base p.length path) = some segments →
        ∃ r, join base path = .ok (some r) ∧
          r = Segments.anchor .system (closedPrefix base p).length base ++
              (Segments.join .system segments ++
                if segments ≠ [] ∧
                    (path = [] ∨ (path.splitOnP Separator.isUnit).getLast?.any isDirectoryMark = true)
                then [Separator.system.unit] else []) ∧
          Prefix.parse? r = some (closedPrefix base p) := by
  have hform := (Prefix.parse?_eq_some_iff_form base p).mp hparse
  have hne : base ≠ [] := by
    rintro rfl
    rw [Prefix.form_unique _ _ _ hform .empty] at hpos
    exact absurd hpos (Nat.lt_irrefl 0)
  have hcontinues := continues base path p hform hpos (Prefix.form_of_length_zero path hrelative)
  rw [join_of_relative base path hne hrelative hbase hpath, hcontinues.normalize?_eq,
    Except.ok.injEq]
  refine ⟨Option.map_eq_none_iff, fun segments hsegments => ?_⟩
  refine ⟨_, by rw [hsegments, Option.map_some], ?_, ?_⟩
  · -- The last raw segment of an empty path is empty.
    have hmark : (path = [] ∨ (path.splitOnP Separator.isUnit).getLast?.any isDirectoryMark = true) ↔
        (path.splitOnP Separator.isUnit).getLast?.any isDirectoryMark = true := by
      refine or_iff_right_of_imp ?_
      rintro rfl
      rfl
    simp only [remainder, hmark, true_and]
  · exact hcontinues.parse?_result _ _ _ _ (closedPrefix_length_pos base p hpos) segments _ hsegments

theorem join_from_drive :
    CodeUnit.nul ∉ [0x43, CodeUnit.colon, 0x61] ∧
      CodeUnit.nul ∉ [CodeUnit.dot, CodeUnit.dot, CodeUnit.slash, 0x62, CodeUnit.slash] ∧
      Prefix.parse? [0x43, CodeUnit.colon, 0x61] = some ⟨.driveRelative, 2⟩ ∧
      Prefix.length? [CodeUnit.dot, CodeUnit.dot, CodeUnit.slash, 0x62, CodeUnit.slash] = some 0 ∧
      join [0x43, CodeUnit.colon, 0x61]
          [CodeUnit.dot, CodeUnit.dot, CodeUnit.slash, 0x62, CodeUnit.slash] =
        .ok (some [0x43, CodeUnit.colon, 0x62, CodeUnit.slash]) ∧
      Prefix.parse? [0x43, CodeUnit.colon, 0x62, CodeUnit.slash] = some ⟨.driveRelative, 2⟩ := by
  have hparse : Prefix.parse? [0x43, CodeUnit.colon, 0x61] = some ⟨.driveRelative, 2⟩ := by decide
  have hrelative :
      Prefix.length? [CodeUnit.dot, CodeUnit.dot, CodeUnit.slash, 0x62, CodeUnit.slash] = some 0 := by
    decide
  obtain ⟨r, hjoin, hr, hkeeps⟩ := (join_from_anchor _ _ _ (by decide) (by decide) hparse
    (by decide) hrelative).2 [[0x62]] (by decide +kernel)
  obtain rfl : r = [0x43, CodeUnit.colon, 0x62, CodeUnit.slash] := hr.trans (by decide +kernel)
  exact ⟨by decide, by decide, hparse, hrelative, hjoin, hkeeps⟩

/-- The bare drive `C:` becomes the root of the drive when `x` is put behind it. -/
theorem join_roots_bare_drive :
    ¬ ∀ (base path r : Text) (p : Prefix), CodeUnit.nul ∉ base → CodeUnit.nul ∉ path →
      Prefix.parse? base = some p → 0 < p.length → Prefix.length? path = some 0 →
      join base path = .ok (some r) → Prefix.parse? r = some p := by
  intro h
  have hkeeps := h [0x43, CodeUnit.colon] [0x78] [0x43, CodeUnit.colon, CodeUnit.slash, 0x78]
    ⟨.driveRelative, 2⟩ (by decide) (by decide) (by decide) (by decide) (by decide)
    (by decide +kernel)
  exact absurd hkeeps (by decide)

end LexicalPath.Path
