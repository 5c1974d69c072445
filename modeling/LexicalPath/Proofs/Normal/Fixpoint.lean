import LexicalPath.Proofs.Normal.Reference

/-!
# Normal paths stay as they are

The segments of a normal path are the ones that remain of it. So it is its own normal form as soon
as its prefix is where it was.
-/

namespace LexicalPath.Segments

open Text

/-! ## The units of a result -/

theorem mem_withSeparator (t : Text) (sep : Separator) (u : CodeUnit) (h : u ∈ t.withSeparator sep) :
    u = sep.unit ∨ u ∈ t := by
  obtain ⟨v, hv, rfl⟩ := List.mem_map.mp h
  split
  · exact Or.inl rfl
  · exact Or.inr hv

theorem other_not_mem_withSeparator (t : Text) (sep : Separator) :
    sep.other.unit ∉ t.withSeparator sep := by
  intro hmem
  obtain ⟨u, -, hu⟩ := List.mem_map.mp hmem
  split at hu
  · cases sep <;> exact absurd hu (by decide)
  · next hne => exact hne hu

theorem mem_anchor (sep : Separator) (start : Nat) (path : Text) (u : CodeUnit)
    (h : u ∈ anchor sep start path) : u = sep.unit ∨ u ∈ path := by
  rcases List.mem_append.mp h with h | h
  · exact (mem_withSeparator _ sep u h).imp_right List.mem_of_mem_take
  · split at h
    · exact Or.inl (List.mem_singleton.mp h)
    · cases h

theorem mem_of_mem_splitOnP (t s : Text) (u : CodeUnit) (hs : s ∈ t.splitOnP Separator.isUnit)
    (hu : u ∈ s) : u ∈ t := by
  have hfree := separatorFree_of_mem_splitOnP t s hs u hu
  have hne : u ≠ Separator.slash.unit := by
    rintro rfl
    rw [Separator.isUnit_unit] at hfree
    cases hfree
  have hclosed : u ∈ closed .slash (t.splitOnP Separator.isUnit) :=
    List.mem_flatMap.mpr ⟨s, hs, List.mem_append_left _ hu⟩
  rw [closed_splitOnP, List.mem_append, List.mem_singleton] at hclosed
  exact (mem_withSeparator t .slash u (hclosed.resolve_right hne)).resolve_left hne

theorem mem_remainder (sep : Separator) (ending : Ending) (segments : List Text) (isDirectory : Bool)
    (u : CodeUnit) (h : u ∈ remainder sep ending segments isDirectory) :
    u = sep.unit ∨ ∃ s ∈ segments, u ∈ s := by
  by_cases hne : segments = []
  · rw [hne, remainder_nil] at h
    cases h
  rcases List.mem_append.mp h with h | h
  · have hclosed : u ∈ closed sep segments := by
      rw [← join_append_unit sep segments hne]
      exact List.mem_append_left _ h
    obtain ⟨s, hs, hu⟩ := List.mem_flatMap.mp hclosed
    rcases List.mem_append.mp hu with hu | hu
    · exact Or.inr ⟨s, hs, hu⟩
    · exact Or.inl (List.mem_singleton.mp hu)
  · split at h
    · exact Or.inl (List.mem_singleton.mp h)
    · cases h

theorem mem_result (sep : Separator) (ending : Ending) (start : Nat) (path : Text)
    (segments : List Text) (isDirectory : Bool)
    (h : resolve [] ((path.drop start).splitOnP Separator.isUnit) = some segments) (u : CodeUnit)
    (hu : u ∈ anchor sep start path ++ remainder sep ending segments isDirectory) :
    u = sep.unit ∨ u ∈ path := by
  rcases List.mem_append.mp hu with hu | hu
  · exact mem_anchor sep start path u hu
  · rcases mem_remainder sep ending segments isDirectory u hu with hu | ⟨s, hs, hu⟩
    · exact Or.inl hu
    · refine Or.inr (resolve_forall (fun s => ∀ u ∈ s, u ∈ path) [] _ segments h (by simp) ?_ s hs u hu)
      exact fun s hs _ u hu => List.mem_of_mem_drop (mem_of_mem_splitOnP _ s u hs hu)

theorem nul_not_mem_result (sep : Separator) (ending : Ending) (start : Nat) (path : Text)
    (segments : List Text) (isDirectory : Bool)
    (h : resolve [] ((path.drop start).splitOnP Separator.isUnit) = some segments)
    (hnul : CodeUnit.nul ∉ path) :
    CodeUnit.nul ∉ anchor sep start path ++ remainder sep ending segments isDirectory := by
  intro hmem
  rcases mem_result sep ending start path segments isDirectory h _ hmem with hunit | hmem
  · cases sep <;> exact absurd hunit (by decide)
  · exact hnul hmem

/-! ## The segments of a result -/

theorem remainder_dropped (sep : Separator) (segments : List Text) (isDirectory : Bool) :
    remainder sep .dropped segments isDirectory = remainder sep .kept segments false := by
  unfold remainder
  simp

theorem splitOnP_remainder (sep : Separator) (segments : List Text) (isDirectory : Bool)
    (hne : segments ≠ []) (h : ∀ s ∈ segments, SeparatorFree s) :
    (remainder sep .kept segments isDirectory).splitOnP Separator.isUnit =
      segments ++ if isDirectory then [[]] else [] := by
  unfold remainder
  cases isDirectory with
  | true =>
    rw [if_pos ⟨rfl, hne, rfl⟩, splitOnP_append_separator _ _ sep.isUnit_unit,
      splitOnP_join sep segments hne h]
    rfl
  | false =>
    rw [if_neg (by simp), List.append_nil, splitOnP_join sep segments hne h]
    exact (List.append_nil segments).symm

theorem resolve_normal (segments : List Text) (isDirectory : Bool)
    (h : ∀ s ∈ segments, isDirectoryMark s = false) :
    resolve [] (segments ++ if isDirectory then [[]] else []) = some segments := by
  have hdown : resolve [] segments = some segments := resolve_of_down [] segments h
  cases isDirectory with
  | true => exact (resolve_concat_nil [] segments).trans hdown
  | false =>
    rw [if_neg (by simp), List.append_nil]
    exact hdown

theorem mark_normal (segments : List Text) (isDirectory : Bool)
    (h : ∀ s ∈ segments, isDirectoryMark s = false) :
    (segments ++ if isDirectory then [[]] else []).getLast?.any isDirectoryMark = isDirectory := by
  cases isDirectory with
  | true =>
    rw [if_pos rfl, List.getLast?_concat]
    rfl
  | false =>
    rw [if_neg (by simp), List.append_nil]
    cases hlast : segments.getLast? with
    | none => rfl
    | some s => exact h s (List.mem_of_getLast? hlast)

theorem remainder_reads_back (sep : Separator) (ending : Ending) (segments : List Text)
    (isDirectory : Bool) (h : ∀ s ∈ segments, SeparatorFree s ∧ isDirectoryMark s = false) :
    resolve [] ((remainder sep .kept segments isDirectory).splitOnP Separator.isUnit) = some segments ∧
      remainder sep ending segments (((remainder sep .kept segments isDirectory).splitOnP
        Separator.isUnit).getLast?.any isDirectoryMark) = remainder sep ending segments isDirectory := by
  by_cases hne : segments = []
  · rw [hne, remainder_nil, List.splitOnP_nil, remainder_nil, remainder_nil]
    exact ⟨rfl, rfl⟩
  · rw [splitOnP_remainder sep segments isDirectory hne (fun s hs => (h s hs).1),
      resolve_normal segments isDirectory (fun s hs => (h s hs).2),
      mark_normal segments isDirectory (fun s hs => (h s hs).2)]
    exact ⟨rfl, rfl⟩

theorem anchor_withSeparator (sep : Separator) (start : Nat) (path : Text) :
    (anchor sep start path).withSeparator sep = anchor sep start path := by
  unfold anchor
  rw [withSeparator_append, withSeparator_withSeparator]
  split
  · rw [withSeparator_cons_separator _ [] sep sep.isUnit_unit]
    rfl
  · rfl

theorem anchor_append (sep : Separator) (base rest : Text) (h : base.withSeparator sep = base) :
    anchor sep base.length (base ++ rest) = base := by
  rw [anchor_of_le sep _ _ (by simp), List.take_left, h]

end LexicalPath.Segments

namespace LexicalPath.Path

open Text Segments

theorem nul_not_mem_normal (sep : Separator) (ending : Ending) (path r : Text)
    (h : normalize sep ending path = .ok (some r)) : CodeUnit.nul ∉ r := by
  obtain ⟨hnul, start, segments, -, hsegments, rfl⟩ := (normalize_eq_some_iff _ _ _ _).mp h
  exact nul_not_mem_result sep ending start path segments _ hsegments hnul

theorem other_not_mem_normal (sep : Separator) (ending : Ending) (path r : Text)
    (h : normalize sep ending path = .ok (some r)) : sep.other.unit ∉ r := by
  obtain ⟨-, start, segments, -, hsegments, rfl⟩ := (normalize_eq_some_iff _ _ _ _).mp h
  intro hmem
  rcases List.mem_append.mp hmem with hmem | hmem
  · rw [← anchor_withSeparator] at hmem
    exact other_not_mem_withSeparator _ sep hmem
  · rcases mem_remainder sep ending segments _ _ hmem with hunit | ⟨s, hs, hu⟩
    · cases sep <;> exact absurd hunit (by decide)
    · have hfree := (remaining_segments _ segments hsegments s hs).1 _ hu
      rw [Separator.isUnit_unit] at hfree
      cases hfree

theorem normalize_normal (sep : Separator) (ending : Ending) (base : Text) (segments : List Text)
    (isDirectory : Bool) (hbase : base.withSeparator sep = base)
    (hsegments : ∀ s ∈ segments, SeparatorFree s ∧ isDirectoryMark s = false)
    (hnul : CodeUnit.nul ∉ base ++ remainder sep .kept segments isDirectory)
    (hlength : Prefix.length? (base ++ remainder sep .kept segments isDirectory) = some base.length) :
    normalize sep ending (base ++ remainder sep .kept segments isDirectory) =
      .ok (some (base ++ remainder sep ending segments isDirectory)) := by
  obtain ⟨hresolve, hremainder⟩ := remainder_reads_back sep ending segments isDirectory hsegments
  refine (normalize_eq_some_iff _ _ _ _).mpr ⟨hnul, base.length, segments, hlength, ?_, ?_⟩
  · rw [List.drop_left, hresolve]
  · rw [List.drop_left, hremainder, anchor_append sep base _ hbase]

theorem normalize_result (sep : Separator) (ending : Ending) (path : Text) (start : Nat)
    (segments : List Text) (isDirectory : Bool) (hnul : CodeUnit.nul ∉ path)
    (hstart : Prefix.length? path = some start)
    (hsegments : resolve [] ((path.drop start).splitOnP Separator.isUnit) = some segments)
    (hlength : Prefix.length? (Segments.anchor sep start path ++
      remainder sep .kept segments isDirectory) = Prefix.length? path) :
    normalize sep ending (Segments.anchor sep start path ++ remainder sep .kept segments isDirectory) =
      .ok (some (Segments.anchor sep start path ++ remainder sep ending segments isDirectory)) := by
  obtain ⟨kind, hform⟩ := (Prefix.length?_eq_some_iff_form path start).mp hstart
  have hanchor := Scan.anchor_length sep path _ hform
  apply normalize_normal sep ending _ segments isDirectory (anchor_withSeparator sep start path)
    (remaining_segments _ segments hsegments)
  · exact nul_not_mem_result sep .kept start path segments isDirectory hsegments hnul
  · rw [hlength, hstart, hanchor]

/-- **Idempotence.** A result that has the prefix length of its path is its own normal form, and
without the last separator it is the normal form that the path has without it. -/
theorem normalize_idempotent (sep : Separator) (path : Text) :
    (∀ r, normalize sep .kept path = .ok (some r) → Prefix.length? r = Prefix.length? path →
      normalize sep .kept r = .ok (some r) ∧
        normalize sep .dropped r = normalize sep .dropped path) ∧
      ∀ q, normalize sep .dropped path = .ok (some q) → Prefix.length? q = Prefix.length? path →
        normalize sep .kept q = .ok (some q) ∧ normalize sep .dropped q = .ok (some q) := by
  constructor
  · intro r hr hlength
    obtain ⟨hnul, start, segments, hstart, hsegments, rfl⟩ := (normalize_eq_some_iff _ _ _ _).mp hr
    refine ⟨normalize_result sep .kept path start segments _ hnul hstart hsegments hlength, ?_⟩
    rw [normalize_result sep .dropped path start segments _ hnul hstart hsegments hlength, eq_comm,
      normalize_eq_some_iff]
    exact ⟨hnul, start, segments, hstart, hsegments, rfl⟩
  · intro q hq hlength
    obtain ⟨hnul, start, segments, hstart, hsegments, rfl⟩ := (normalize_eq_some_iff _ _ _ _).mp hq
    rw [remainder_dropped] at hlength ⊢
    have hdropped := normalize_result sep .dropped path start segments _ hnul hstart hsegments hlength
    rw [remainder_dropped] at hdropped
    exact ⟨normalize_result sep .kept path start segments _ hnul hstart hsegments hlength, hdropped⟩

theorem normalize_home_idempotent :
    normalize .slash .kept [CodeUnit.tilde] = .ok (some [CodeUnit.tilde, CodeUnit.slash]) ∧
      normalize .slash .kept [CodeUnit.tilde, CodeUnit.slash] =
        .ok (some [CodeUnit.tilde, CodeUnit.slash]) ∧
      normalize .slash .dropped [CodeUnit.tilde, CodeUnit.slash] =
        normalize .slash .dropped [CodeUnit.tilde] := by
  have hhome : normalize .slash .kept [CodeUnit.tilde] =
      .ok (some [CodeUnit.tilde, CodeUnit.slash]) := by
    decide +kernel
  exact ⟨hhome, (normalize_idempotent .slash [CodeUnit.tilde]).1 _ hhome (by decide)⟩

end LexicalPath.Path
