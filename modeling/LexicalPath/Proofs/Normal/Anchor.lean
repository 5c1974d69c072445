import LexicalPath.Proofs.Normal.Reference

/-!
# What a normal path starts from

The prefix is read off a path before its segments are taken out. Then another segment may stand
first, and where nothing in front of it tells otherwise it is read as a part of the prefix.
-/

namespace LexicalPath.Segments

open Text

/-! ## The first segment -/

/-- Whether a path that starts from a place of this kind starts from another one, or from none, as
soon as `first` comes first behind its prefix. -/
def reanchors (sep : Separator) (kind : Prefix.Kind) (first : Text) : Bool :=
  match kind with
  | .relative => first.head? == some CodeUnit.tilde || first.head? == some CodeUnit.colon ||
      first[1]? == some CodeUnit.colon
  | .rootAbsolute => sep == .backslash && first.head? == some CodeUnit.colon
  | _ => false

theorem reanchors_nil (sep : Separator) (kind : Prefix.Kind) : reanchors sep kind [] = false := by
  cases kind <;> simp [reanchors]

theorem reanchors_append (sep : Separator) (kind : Prefix.Kind) (first more : Text) (hne : first ≠ [])
    (hmore : ∀ u ∈ more.head?, u = sep.unit) :
    reanchors sep kind (first ++ more) = reanchors sep kind first := by
  obtain ⟨u, first, rfl⟩ := List.exists_cons_of_ne_nil hne
  have hsecond : ((u :: first ++ more)[1]? == some CodeUnit.colon) =
      ((u :: first)[1]? == some CodeUnit.colon) := by
    cases first with
    | cons v first => simp
    | nil =>
      cases more with
      | nil => rfl
      | cons w more =>
        have hw : w ≠ CodeUnit.colon := by
          rw [hmore w rfl]
          exact (Separator.isUnit_ne _ sep.isUnit_unit).1
        simp [hw]
  cases kind with
  | relative =>
    unfold reanchors
    rw [hsecond]
    rfl
  | _ => rfl

theorem remainder_cons (sep : Separator) (ending : Ending) (first : Text) (others : List Text)
    (isDirectory : Bool) :
    ∃ more, remainder sep ending (first :: others) isDirectory = first ++ more ∧
      ∀ u ∈ more.head?, u = sep.unit := by
  unfold remainder
  cases others with
  | nil =>
    rw [join, List.intercalate_singleton]
    refine ⟨_, rfl, ?_⟩
    split <;> simp
  | cons second others =>
    rw [join_cons_cons, List.append_assoc]
    exact ⟨_, rfl, by simp⟩

theorem remainder_head? (sep : Separator) (ending : Ending) (segments : List Text) (isDirectory : Bool)
    (h : ∀ s ∈ segments, SeparatorFree s ∧ isDirectoryMark s = false) :
    (remainder sep ending segments isDirectory).head?.any Separator.isUnit = false := by
  cases segments with
  | nil => rw [remainder_nil, List.head?_nil, Option.any_none]
  | cons first others =>
    obtain ⟨more, hmore, -⟩ := remainder_cons sep ending first others isDirectory
    obtain ⟨hfree, hmark⟩ := h first List.mem_cons_self
    cases first with
    | nil => exact absurd hmark (by decide)
    | cons u first =>
      rw [hmore, List.cons_append, List.head?_cons, Option.any_some]
      exact hfree u List.mem_cons_self

theorem reanchors_remainder (sep : Separator) (ending : Ending) (kind : Prefix.Kind)
    (segments : List Text) (isDirectory : Bool)
    (h : ∀ s ∈ segments, SeparatorFree s ∧ isDirectoryMark s = false) :
    reanchors sep kind (remainder sep ending segments isDirectory) = false ↔
      ∀ first ∈ segments.head?, reanchors sep kind first = false := by
  cases segments with
  | nil => simp [remainder_nil, reanchors_nil]
  | cons first others =>
    obtain ⟨more, hmore, hunit⟩ := remainder_cons sep ending first others isDirectory
    have hne : first ≠ [] := by
      rintro rfl
      exact absurd (h [] List.mem_cons_self).2 (by decide)
    rw [hmore, reanchors_append sep kind first more hne hunit]
    simp

/-! ## The anchor of each form -/

theorem anchor_root (sep : Separator) (u : CodeUnit) (rest : Text) (hu : Separator.isUnit u = true) :
    anchor sep 1 (u :: rest) = [sep.unit] := by
  rw [anchor_of_le sep 1 _ (by simp)]
  exact withSeparator_cons_separator u [] sep hu

theorem anchor_drive (sep : Separator) (l : CodeUnit) (rest : Text) (hl : l.isLetter = true) :
    anchor sep 2 (l :: CodeUnit.colon :: rest) = [l, CodeUnit.colon] := by
  rw [anchor_of_le sep 2 _ (by simp)]
  exact withSeparator_of_separatorFree _ sep
    (by simp [SeparatorFree, (CodeUnit.isLetter_ne_unit l hl).2.2, Separator.isUnit_colon])

theorem anchor_driveRoot (sep : Separator) (l u : CodeUnit) (rest : Text) (hl : l.isLetter = true)
    (hu : Separator.isUnit u = true) :
    anchor sep 3 (l :: CodeUnit.colon :: u :: rest) = [l, CodeUnit.colon, sep.unit] := by
  rw [anchor_of_le sep 3 _ (by simp)]
  exact withSeparator_concat [l, CodeUnit.colon] u sep
    (by simp [SeparatorFree, (CodeUnit.isLetter_ne_unit l hl).2.2, Separator.isUnit_colon]) hu

theorem anchor_host (sep : Separator) (u v : CodeUnit) (host : Text) (w : CodeUnit) (rest : Text)
    (hu : Separator.isUnit u = true) (hv : Separator.isUnit v = true) (hfree : SeparatorFree host)
    (hw : Separator.isUnit w = true) :
    anchor sep (host.length + 3) (u :: v :: (host ++ w :: rest)) =
      sep.unit :: sep.unit :: (host ++ [sep.unit]) := by
  rw [anchor_of_le sep _ _ (by simp), Prefix.take_host, withSeparator_cons_separator u _ sep hu,
    withSeparator_cons_separator v _ sep hv, withSeparator_concat host w sep hfree hw]

theorem anchor_home (sep : Separator) (name : Text) (w : CodeUnit) (rest : Text)
    (hfree : SeparatorFree name) (hw : Separator.isUnit w = true) :
    anchor sep (name.length + 2) (CodeUnit.tilde :: (name ++ w :: rest)) =
      CodeUnit.tilde :: (name ++ [sep.unit]) := by
  rw [anchor_of_le sep _ _ (by simp), Prefix.take_home,
    withSeparator_cons_other _ _ sep Separator.isUnit_tilde, withSeparator_concat name w sep hfree hw]

theorem anchor_bareHome (sep : Separator) (name : Text) (hfree : SeparatorFree name) :
    anchor sep (name.length + 2) (CodeUnit.tilde :: name) =
      CodeUnit.tilde :: (name ++ [sep.unit]) := by
  rw [anchor_of_lt sep _ _ (by simp), withSeparator_cons_other _ _ sep Separator.isUnit_tilde,
    withSeparator_of_separatorFree name sep hfree, List.cons_append]

/-! ## The prefix of a normal path -/

theorem form_relative_iff_reanchors (sep : Separator) (t : Text)
    (ht : t.head?.any Separator.isUnit = false) :
    Prefix.Form t ⟨.relative, 0⟩ ↔ reanchors sep .relative t = false := by
  rw [Prefix.form_relative_iff t ht]
  simp [reanchors, and_assoc]

theorem form_root_iff_reanchors (sep : Separator) (t : Text)
    (ht : t.head?.any Separator.isUnit = false) :
    Prefix.Form (sep.unit :: t) ⟨.rootAbsolute, 1⟩ ↔ reanchors sep .rootAbsolute t = false := by
  rw [Prefix.form_rootAbsolute_iff sep.unit t sep.isUnit_unit ht]
  cases sep with
  | slash => simp [reanchors, Separator.unit, show CodeUnit.slash ≠ CodeUnit.backslash by decide]
  | backslash => simp [reanchors, Separator.unit]

theorem form_host_append (sep : Separator) (host t : Text) (hne : host ≠ [])
    (hfree : SeparatorFree host) (hhost : Host.isValid host = true) :
    Prefix.Form (sep.unit :: sep.unit :: (host ++ [sep.unit]) ++ t) ⟨.unc, host.length + 3⟩ := by
  have hform := Prefix.Form.unc sep.unit sep.unit host sep.unit t sep.isUnit_unit sep.isUnit_unit hne
    hfree hhost sep.isUnit_unit
  simpa using hform

theorem form_home_append (sep : Separator) (name t : Text) (hne : name ≠ [])
    (hfree : SeparatorFree name) :
    Prefix.Form (CodeUnit.tilde :: (name ++ [sep.unit]) ++ t) ⟨.homeNamedUser, name.length + 2⟩ := by
  have hform := Prefix.Form.namedHome name sep.unit t hne hfree sep.isUnit_unit
  simpa using hform

theorem form_anchor_iff (sep : Separator) (path t : Text) (p : Prefix) (h : Prefix.Form path p)
    (ht : t.head?.any Separator.isUnit = false) :
    Prefix.Form (anchor sep p.length path ++ t) p ↔ reanchors sep p.kind t = false := by
  cases h with
  | empty => exact form_relative_iff_reanchors sep t ht
  | relative u rest => exact form_relative_iff_reanchors sep t ht
  | rootAbsolute u rest hu =>
    rw [anchor_root sep u rest hu]
    exact form_root_iff_reanchors sep t ht
  | driveRelative l rest hl =>
    rw [anchor_drive sep l rest hl]
    exact iff_of_true (.driveRelative l t hl ht) rfl
  | driveAbsolute l u rest hl hu =>
    rw [anchor_driveRoot sep l u rest hl hu]
    exact iff_of_true (.driveAbsolute l sep.unit t hl sep.isUnit_unit) rfl
  | unc u v host w rest hu hv hne hfree hhost hw =>
    rw [anchor_host sep u v host w rest hu hv hfree hw]
    exact iff_of_true (form_host_append sep host t hne hfree hhost) rfl
  | bareHome =>
    have hanchor : anchor sep 2 [CodeUnit.tilde] = [CodeUnit.tilde, sep.unit] :=
      anchor_bareHome sep [] separatorFree_nil
    rw [hanchor]
    exact iff_of_true (.home sep.unit t sep.isUnit_unit) rfl
  | home u rest hu =>
    have hanchor : anchor sep 2 (CodeUnit.tilde :: u :: rest) = [CodeUnit.tilde, sep.unit] :=
      anchor_home sep [] u rest separatorFree_nil hu
    rw [hanchor]
    exact iff_of_true (.home sep.unit t sep.isUnit_unit) rfl
  | bareNamedHome name hne hfree =>
    rw [anchor_bareHome sep name hfree]
    exact iff_of_true (form_home_append sep name t hne hfree) rfl
  | namedHome name w rest hne hfree hw =>
    rw [anchor_home sep name w rest hfree hw]
    exact iff_of_true (form_home_append sep name t hne hfree) rfl

theorem reanchors_slash (path t : Text) (p : Prefix) (h : Prefix.Form path p) (hpos : 0 < p.length) :
    reanchors .slash p.kind t = false := by
  cases h with
  | empty | relative => exact absurd hpos (Nat.lt_irrefl 0)
  | _ => rfl

end LexicalPath.Segments

namespace LexicalPath.Path

open Segments

/-- **Prefixes under normalization.** A normal path has the prefix of its path exactly if the first
segment that remains is not read as a part of another prefix. -/
theorem normalize_keeps_prefix_iff (sep : Separator) (ending : Ending) (path r : Text)
    (h : normalize sep ending path = .ok (some r)) :
    ∃ p segments, Prefix.parse? path = some p ∧ remaining? path = some segments ∧
      (Prefix.parse? r = some p ↔ ∀ first ∈ segments.head?, reanchors sep p.kind first = false) := by
  obtain ⟨-, start, segments, hstart, hsegments, rfl⟩ := (normalize_eq_some_iff sep ending path r).mp h
  obtain ⟨kind, hform⟩ := (Prefix.length?_eq_some_iff_form path start).mp hstart
  have hproper := remaining_segments (path.drop start) segments hsegments
  refine ⟨⟨kind, start⟩, segments, Prefix.parse?_of_form path _ hform, ?_, ?_⟩
  · unfold remaining?
    rw [hstart, Option.bind_some, hsegments]
  · rw [Prefix.parse?_eq_some_iff_form,
      form_anchor_iff sep path _ ⟨kind, start⟩ hform (remainder_head? sep ending segments _ hproper)]
    exact reanchors_remainder sep ending kind segments _ hproper

theorem normalize_keeps_home :
    normalize .slash .kept
        [CodeUnit.tilde, CodeUnit.slash, CodeUnit.dot, CodeUnit.slash, CodeUnit.tilde] =
      .ok (some [CodeUnit.tilde, CodeUnit.slash, CodeUnit.tilde]) ∧
      ∃ p segments,
        Prefix.parse? [CodeUnit.tilde, CodeUnit.slash, CodeUnit.dot, CodeUnit.slash, CodeUnit.tilde] =
          some p ∧
        remaining? [CodeUnit.tilde, CodeUnit.slash, CodeUnit.dot, CodeUnit.slash, CodeUnit.tilde] =
          some segments ∧
        (Prefix.parse? [CodeUnit.tilde, CodeUnit.slash, CodeUnit.tilde] = some p ↔
          ∀ first ∈ segments.head?, reanchors .slash p.kind first = false) :=
  ⟨by decide +kernel, normalize_keeps_prefix_iff .slash .kept _ _ (by decide +kernel)⟩

/-- The entry `./~` of the working directory becomes the home directory. -/
theorem normalize_loses_prefix :
    ¬ ∀ (sep : Separator) (path r : Text), CodeUnit.nul ∉ path →
      normalize sep .kept path = .ok (some r) →
      ∃ p, Prefix.parse? r = some p ∧ Prefix.parse? path = some p := by
  intro h
  obtain ⟨p, hr, hpath⟩ := h .slash [CodeUnit.dot, CodeUnit.slash, CodeUnit.tilde] [CodeUnit.tilde]
    (by decide) (by decide +kernel)
  rw [← hr] at hpath
  exact absurd hpath (by decide +kernel)

end LexicalPath.Path
