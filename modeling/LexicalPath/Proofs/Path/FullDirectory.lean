import LexicalPath.Proofs.Path.Parts

/-!
# Full directories without their end

The directory of a path loses the last separator. If that separator is the end of the prefix, the
prefix is cut, and what is left starts elsewhere or nowhere. Only the root is kept whole.
-/

namespace LexicalPath.Path

open Text

/-! ## Prefixes that are cut -/

/-- Nothing but a name stands behind the separator that ends the prefix. The root does not count,
since its separator is all of it. -/
structure NameAtPrefix (path : Text) (p : Prefix) : Prop where
  closed : p.kind ≠ .relative ∧ p.kind ≠ .rootAbsolute ∧ p.kind ≠ .driveRelative
  nonempty : path.drop p.length ≠ []
  name : SeparatorFree (path.drop p.length)

/-- The prefix of the text that a prefix leaves behind when its separator is taken off. -/
def bare? (p : Prefix) : Option Prefix :=
  match p.kind with
  | .driveAbsolute => some ⟨.driveRelative, 2⟩
  | .unc => none
  | _ => some p

/-- The separator of a prefix decides how it is read: without it the drive is one to work in, the
host has no share, and the home is virtual. -/
theorem parse?_bare (path : Text) (p : Prefix) (h : Prefix.Form path p)
    (hle : p.length ≤ path.length)
    (hclosed : p.kind ≠ .relative ∧ p.kind ≠ .rootAbsolute ∧ p.kind ≠ .driveRelative) :
    Prefix.parse? (path.take (p.length - 1)) = bare? p := by
  obtain ⟨hrelative, hroot, hdrive⟩ := hclosed
  cases h with
  | empty => exact absurd rfl hrelative
  | relative => exact absurd rfl hrelative
  | rootAbsolute => exact absurd rfl hroot
  | driveRelative => exact absurd rfl hdrive
  | driveAbsolute l u rest hl hu =>
    exact Prefix.parse?_of_form [l, CodeUnit.colon] _ (.driveRelative l [] hl rfl)
  | unc u v host w rest hu hv hne hfree hhost hw =>
    have htake : (u :: v :: (host ++ w :: rest)).take (host.length + 3 - 1) = u :: v :: host := by
      simp
    rw [htake, Prefix.parse?, Prefix.length?_two_separators u v host hu hv,
      Prefix.uncLength?_eq_none u v host hfree]
    rfl
  | bareHome => exact absurd hle (by decide)
  | home u rest hu => exact Prefix.parse?_of_form [CodeUnit.tilde] _ .bareHome
  | bareNamedHome name =>
    simp only [List.length_cons] at hle
    omega
  | namedHome name w rest hne hfree hw =>
    have htake : (CodeUnit.tilde :: (name ++ w :: rest)).take (name.length + 2 - 1) =
        CodeUnit.tilde :: name := by
      simp
    rw [htake]
    exact Prefix.parse?_of_form _ _ (.bareNamedHome name hne hfree)

/-! ## The directory -/

section

variable (path : Text) (p : Prefix) (h : Prefix.Form path p)

include h

theorem fullDirectory_of_length_le (hle : path.length ≤ p.length) :
    fullDirectory .dropped path = .ok (some path) := by
  have hlen : Prefix.length? path = some p.length := Prefix.length?_of_form path p h
  unfold fullDirectory
  simp only [hlen, if_pos hle]

theorem fullDirectory_of_separatorFree (hlt : p.length < path.length) (hfree : SeparatorFree path) :
    fullDirectory .dropped path = .ok (some (path.take p.length)) := by
  have hlen : Prefix.length? path = some p.length := Prefix.length?_of_form path p h
  unfold fullDirectory
  simp only [hlen, if_neg (Nat.not_le.mpr hlt), lastSeparatorIdx?_of_separatorFree path hfree]

theorem fullDirectory_split (dir : Text) (w : CodeUnit) (rest : Text) (hlt : p.length < path.length)
    (hpath : path = dir ++ w :: rest) (hw : Separator.isUnit w = true)
    (hrest : SeparatorFree rest) :
    fullDirectory .dropped path = .ok (some (if dir = [] then [w] else dir)) := by
  have hlen : Prefix.length? path = some p.length := Prefix.length?_of_form path p h
  have hlast : path.lastSeparatorIdx? = some dir.length := by
    rw [hpath, lastSeparatorIdx?_split dir w rest hw hrest]
  unfold fullDirectory
  simp only [hlen, if_neg (Nat.not_le.mpr hlt), hlast, directoryEnd]
  split
  · next hdir =>
    rw [hpath, hdir, List.length_nil, Nat.max_zero, List.nil_append]
    rfl
  · next hdir => rw [Nat.max_eq_right (List.length_pos_iff.mpr hdir), hpath, List.take_left]

theorem form_length_le_one_iff : p.length ≤ 1 ↔ p.kind = .relative ∨ p.kind = .rootAbsolute := by
  cases h <;> simp

theorem directory_of_separatorFree (hle : p.length ≤ path.length) (hfree : SeparatorFree path) :
    ¬ NameAtPrefix path p ∧ Prefix.Form (path.take p.length) p := by
  have hlength : (path.take p.length).length = p.length := List.length_take_of_le hle
  rcases Prefix.form_cases path p h hle with ⟨hkind, htake, -⟩ | ⟨hkind, htake, -⟩ | ⟨-, hends⟩
  · refine ⟨fun hname => hname.closed.1 hkind, ?_⟩
    rw [htake, List.length_nil] at hlength
    obtain ⟨kind, length⟩ := p
    obtain rfl : kind = .relative := hkind
    obtain rfl : length = 0 := hlength.symm
    exact .empty
  · obtain ⟨l, htake, -⟩ := htake
    refine ⟨fun hname => hname.closed.2.2 hkind, ?_⟩
    exact Prefix.form_front _ (path.drop p.length) p (by rwa [List.take_append_drop])
      (by simp [htake]) (Nat.le_of_eq hlength.symm)
  · rw [endsWithSeparator_of_separatorFree _ fun u hu => hfree u (List.mem_of_mem_take hu)] at hends
    cases hends

variable (dir : Text) (w : CodeUnit) (rest : Text) (hpath : path = dir ++ w :: rest)
  (hw : Separator.isUnit w = true)

include hpath hw

theorem directory_of_split (hle : p.length ≤ dir.length) :
    dir ≠ [] ∧ ¬ NameAtPrefix path p ∧ path.take p.length <+: dir ∧ Prefix.Form dir p := by
  have hdir : dir ≠ [] := by
    rintro rfl
    have hzero : p.length = 0 := Nat.le_zero.mp hle
    have hboundary := Prefix.form_boundary path p h (by omega)
    rw [hzero, hpath] at hboundary
    simp [hw, endsWithSeparator] at hboundary
  refine ⟨hdir, ?_, ?_, ?_⟩
  · intro hname
    have hmem : w ∈ path.drop p.length := by
      rw [hpath, List.drop_append_of_le_length hle]
      simp
    rw [hname.name w hmem] at hw
    cases hw
  · rw [hpath, List.take_append_of_le_length hle]
    exact List.take_prefix p.length dir
  · rw [hpath] at h
    exact Prefix.form_front dir (w :: rest) p h hdir hle

omit h hw in
theorem take_drop_split (hlength : p.length = dir.length + 1) :
    path.take p.length = dir ++ [w] ∧ path.drop p.length = rest := by
  have hfull : path = (dir ++ [w]) ++ rest := by simp [hpath]
  have hcut : (dir ++ [w]).length = p.length := by simp [hlength]
  rw [hfull, List.take_left' hcut, List.drop_left' hcut]
  exact ⟨rfl, rfl⟩

omit hw in
theorem directory_at_root (hdir : dir = []) (hlength : p.length = 1) :
    ¬ NameAtPrefix path p ∧ path.take p.length = [w] ∧ Prefix.Form [w] p := by
  obtain rfl := hdir
  refine ⟨fun hname => ?_, (take_drop_split path p [] w rest hpath hlength).1, ?_⟩
  · have hkind := (form_length_le_one_iff path p h).mp (Nat.le_of_eq hlength)
    exact hkind.elim hname.closed.1 hname.closed.2.1
  · rw [hpath, List.nil_append, ← List.singleton_append] at h
    exact Prefix.form_front [w] rest p h (by simp) (Nat.le_of_eq hlength)

theorem nameAtPrefix_of_split (hlength : p.length = dir.length + 1) (hdir : dir ≠ [])
    (hrest : SeparatorFree rest) (hne : rest ≠ []) : NameAtPrefix path p := by
  obtain ⟨htake, hdrop⟩ := take_drop_split path p dir w rest hpath hlength
  have hlong : ¬ p.length ≤ 1 := by
    have hpos := List.length_pos_iff.mpr hdir
    omega
  rw [form_length_le_one_iff path p h, not_or] at hlong
  refine ⟨⟨hlong.1, hlong.2, ?_⟩, by rwa [hdrop], by rwa [hdrop]⟩
  have hle : p.length ≤ path.length := by simp [hpath, hlength]
  rcases Prefix.form_cases path p h hle with
    ⟨hkind, -, -⟩ | ⟨-, ⟨l, hdrive, -⟩, -⟩ | ⟨hkind, -⟩
  · exact absurd hkind hlong.1
  · have hends := Prefix.endsWithSeparator_concat dir w hw
    rw [← htake, hdrive] at hends
    exact absurd hends (by simp [endsWithSeparator, Separator.isUnit_colon])
  · exact hkind

end

theorem fullDirectory_cases (path : Text) (p : Prefix) (h : Prefix.Form path p)
    (hle : p.length ≤ path.length) :
    ∃ full, fullDirectory .dropped path = .ok (some full) ∧
      ((¬ NameAtPrefix path p ∧ path.take p.length <+: full ∧ Prefix.Form full p) ∨
        (NameAtPrefix path p ∧ ∃ w, Separator.isUnit w = true ∧
          path.take p.length = full ++ [w])) := by
  rcases Nat.lt_or_ge p.length path.length with hlt | hge
  · rcases separatorFree_or_lastSplit path with hfree | ⟨dir, w, rest, hpath, hw, hrest⟩
    · obtain ⟨hname, hfront⟩ := directory_of_separatorFree path p h hle hfree
      exact ⟨_, fullDirectory_of_separatorFree path p h hlt hfree,
        Or.inl ⟨hname, List.prefix_refl _, hfront⟩⟩
    · refine ⟨_, fullDirectory_split path p h dir w rest hlt hpath hw hrest, ?_⟩
      have hbound := prefix_le_directory dir w rest path p h hpath hw hrest
      -- The last separator is the end of the prefix, or stands behind it.
      rcases Nat.lt_or_ge dir.length p.length with hcut | hkept
      · have hlength : p.length = dir.length + 1 := by omega
        split
        · next hdir =>
          obtain ⟨hname, htake, hroot⟩ := directory_at_root path p h dir w rest hpath hdir
            (by rw [hlength, hdir, List.length_nil])
          exact Or.inl ⟨hname, htake ▸ List.prefix_refl [w], hroot⟩
        · next hdir =>
          have hne : rest ≠ [] := by
            rintro rfl
            rw [hpath, List.length_append, List.length_singleton] at hlt
            omega
          exact Or.inr ⟨nameAtPrefix_of_split path p h dir w rest hpath hw hlength hdir hrest hne,
            w, hw, (take_drop_split path p dir w rest hpath hlength).1⟩
      · obtain ⟨hdir, hname, htake, hfront⟩ :=
          directory_of_split path p h dir w rest hpath hw hkept
        rw [if_neg hdir]
        exact Or.inl ⟨hname, htake, hfront⟩
  · refine ⟨path, fullDirectory_of_length_le path p h hge, Or.inl ⟨?_, ?_, h⟩⟩
    · exact fun hname => hname.nonempty (List.drop_eq_nil_of_le hge)
    · exact List.take_prefix p.length path

/-- **The directory holds the prefix** when its last separator is left out, unless a name stands
right behind a prefix that ends with a separator. Then it is the prefix without that separator. -/
theorem fullDirectory_keeps_prefix_iff (path : Text) (p : Prefix) (hnul : CodeUnit.nul ∉ path)
    (hp : Prefix.parse? path = some p) (hreal : p.isVirtual path.length = false) :
    ∃ pre full, anchor path = .ok (some pre) ∧ fullDirectory .dropped path = .ok (some full) ∧
      (pre <+: full ∧ Prefix.parse? full = some p ↔ ¬ NameAtPrefix path p) ∧
      (NameAtPrefix path p → ∃ w, Separator.isUnit w = true ∧ pre = full ++ [w] ∧
        Prefix.parse? full = bare? p) := by
  have hform := (Prefix.parse?_eq_some_iff_form path p).mp hp
  have hle : p.length ≤ path.length := by simpa [Prefix.isVirtual] using hreal
  have hanchor := anchor_eq path p hform hnul
  rw [if_neg (Nat.not_lt.mpr hle)] at hanchor
  obtain ⟨full, hfull, hcases⟩ := fullDirectory_cases path p hform hle
  refine ⟨path.take p.length, full, hanchor, hfull, ?_⟩
  rcases hcases with ⟨hname, htake, hfront⟩ | ⟨hname, w, hw, htake⟩
  · exact ⟨iff_of_true ⟨htake, Prefix.parse?_of_form full p hfront⟩ hname,
      fun hcut => absurd hcut hname⟩
  · have hlt : p.length < path.length :=
      Nat.lt_of_not_ge fun hge => hname.nonempty (List.drop_eq_nil_of_le hge)
    have hcut : path.take (p.length - 1) = full := by
      rw [← List.dropLast_take hlt, htake, List.dropLast_concat]
    have hbare := parse?_bare path p hform hle hname.closed
    rw [hcut] at hbare
    refine ⟨iff_of_false ?_ (not_not_intro hname), fun _ => ⟨w, hw, htake, hbare⟩⟩
    rintro ⟨hstart, -⟩
    have hlength := hstart.length_le
    rw [htake, List.length_append, List.length_singleton] at hlength
    omega

theorem fullDirectory_of_drive_file :
    CodeUnit.nul ∉ [0x43, CodeUnit.colon, CodeUnit.slash, 0x61, CodeUnit.slash, 0x62] ∧
      Prefix.parse? [0x43, CodeUnit.colon, CodeUnit.slash, 0x61, CodeUnit.slash, 0x62] =
        some ⟨.driveAbsolute, 3⟩ ∧
      Prefix.isVirtual ⟨.driveAbsolute, 3⟩ 6 = false ∧
      ∃ pre full,
        anchor [0x43, CodeUnit.colon, CodeUnit.slash, 0x61, CodeUnit.slash, 0x62] =
          .ok (some pre) ∧
        fullDirectory .dropped
            [0x43, CodeUnit.colon, CodeUnit.slash, 0x61, CodeUnit.slash, 0x62] =
          .ok (some full) ∧
        pre <+: full ∧ Prefix.parse? full = some ⟨.driveAbsolute, 3⟩ := by
  have hparse : Prefix.parse? [0x43, CodeUnit.colon, CodeUnit.slash, 0x61, CodeUnit.slash, 0x62] =
      some ⟨.driveAbsolute, 3⟩ := by
    decide
  obtain ⟨pre, full, hpre, hfull, hiff, -⟩ :=
    fullDirectory_keeps_prefix_iff _ ⟨.driveAbsolute, 3⟩ (by decide) hparse (by decide)
  refine ⟨by decide, hparse, by decide, pre, full, hpre, hfull, hiff.mpr fun hname => ?_⟩
  exact absurd (hname.name CodeUnit.slash (by decide)) (by decide)

/-- Without its separator, the root in front of the name `a` is a drive to work in. -/
theorem fullDirectory_loses_prefix :
    ¬ ∀ (path pre full : Text) (p : Prefix), CodeUnit.nul ∉ path → Prefix.parse? path = some p →
      p.isVirtual path.length = false → anchor path = .ok (some pre) →
      fullDirectory .dropped path = .ok (some full) →
      pre <+: full ∧ Prefix.length? full = some p.length := by
  intro hall
  have hkept := hall [0x43, CodeUnit.colon, CodeUnit.slash, 0x61]
    [0x43, CodeUnit.colon, CodeUnit.slash] [0x43, CodeUnit.colon] ⟨.driveAbsolute, 3⟩ (by decide)
    (by decide) (by decide) rfl rfl
  exact absurd hkept.2 (by decide)

end LexicalPath.Path
