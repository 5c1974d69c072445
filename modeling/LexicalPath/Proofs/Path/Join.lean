import LexicalPath.Normal.Basic
import LexicalPath.Proofs.Normal.Reference

/-!
# Joining behind an invalid path

A path is not checked before another one is put behind it, only the two together are. What is put
behind it may complete it, and there is one form of prefix that is invalid until it is complete: two
separators that no host or no end of the host follows.
-/

namespace LexicalPath.Path

open Text

/-! ## Parts that complete each other -/

/-- The parts of a share that are no path by themselves, and what is behind the share when they are
joined. -/
inductive Completes : Text → Text → Text → Prop where
  /-- The separator that is put in between ends the host. -/
  | host (u v : CodeUnit) (host path : Text) (hu : Separator.isUnit u = true)
      (hv : Separator.isUnit v = true) (hne : host ≠ []) (hfree : SeparatorFree host)
      (hhost : Host.isValid host = true) : Completes (u :: v :: host) path path
  | separators (u v : CodeUnit) (host : Text) (w : CodeUnit) (rest : Text)
      (hu : Separator.isUnit u = true) (hv : Separator.isUnit v = true) (hne : host ≠ [])
      (hfree : SeparatorFree host) (hhost : Host.isValid host = true)
      (hw : Separator.isUnit w = true) : Completes [u, v] (host ++ w :: rest) rest

theorem append_of_closed (base path : Text) (h : base.endsWithSeparator = true) :
    append base path = base ++ path := if_pos h

theorem append_of_open (base path : Text) (h : base.endsWithSeparator = false) :
    append base path = base ++ Separator.slash.unit :: path := if_neg (by simp [h])

theorem endsWithSeparator_host (u v : CodeUnit) (host : Text) (hne : host ≠ [])
    (hfree : SeparatorFree host) : endsWithSeparator (u :: v :: host) = false := by
  have hhost := endsWithSeparator_of_separatorFree host hfree
  unfold endsWithSeparator at hhost ⊢
  rw [List.getLast?_cons_of_ne_nil (by simp), List.getLast?_cons_of_ne_nil hne, hhost]

theorem form_of_completes (base path rest : Text) (h : Completes base path rest) :
    ∃ n, Prefix.Form (append base path) ⟨.unc, n⟩ ∧ (append base path).drop n = rest := by
  cases h with
  | host u v host path hu hv hne hfree hhost =>
    rw [append_of_open _ path (endsWithSeparator_host u v host hne hfree)]
    refine ⟨host.length + 3, ?_, ?_⟩
    · exact .unc u v host _ path hu hv hne hfree hhost (by decide)
    · simp
  | separators u v host w rest hu hv hne hfree hhost hw =>
    rw [append_of_closed _ _ (by simpa [endsWithSeparator] using hv)]
    refine ⟨host.length + 3, .unc u v host w rest hu hv hne hfree hhost hw, ?_⟩
    simp

theorem prefix_append (base path : Text) : base <+: append base path := by
  unfold append
  split
  · exact List.prefix_append base path
  · exact List.prefix_append base (Separator.slash.unit :: path)

/-! ## Paths that end inside a prefix -/

section

variable (base : Text) (hbase : base ≠ [])

include hbase

theorem exists_form_drive (l : CodeUnit) (rest : Text) (hl : l.isLetter = true)
    (hlength : base.length < 3) (hfront : base <+: l :: CodeUnit.colon :: rest) :
    ∃ p, Prefix.Form base p := by
  obtain ⟨hcolon, htilde, hother⟩ := CodeUnit.isLetter_ne_unit l hl
  match base with
  | [x] =>
    obtain ⟨rfl, -⟩ := List.cons_prefix_cons.mp hfront
    exact ⟨_, .relative x [] htilde hcolon hother (by simp)⟩
  | [x, y] =>
    rw [List.cons_prefix_cons, List.cons_prefix_cons] at hfront
    obtain ⟨rfl, rfl, -⟩ := hfront
    exact ⟨_, .driveRelative x [] hl rfl⟩

theorem exists_form_home (rest : Text) (hfront : base <+: CodeUnit.tilde :: rest) :
    ∃ p, Prefix.Form base p := by
  match base with
  | [x] =>
    obtain ⟨rfl, -⟩ := List.cons_prefix_cons.mp hfront
    exact ⟨_, .bareHome⟩
  | x :: y :: base =>
    obtain ⟨rfl, -⟩ := List.cons_prefix_cons.mp hfront
    exact Prefix.form_tilde y base

theorem form_or_completes_share (path : Text) (u v : CodeUnit) (host : Text) (w : CodeUnit)
    (rest : Text) (hu : Separator.isUnit u = true) (hv : Separator.isUnit v = true)
    (hne : host ≠ []) (hfree : SeparatorFree host) (hhost : Host.isValid host = true)
    (hw : Separator.isUnit w = true) (hlength : base.length < host.length + 3)
    (hjoined : append base path = u :: v :: (host ++ w :: rest)) :
    (∃ p, Prefix.Form base p) ∨ Completes base path rest := by
  have hfront := prefix_append base path
  rw [hjoined] at hfront
  match base with
  | [x] =>
    obtain ⟨rfl, -⟩ := List.cons_prefix_cons.mp hfront
    exact Or.inl ⟨_, .rootAbsolute x [] hu rfl (by simp)⟩
  | [x, y] =>
    rw [List.cons_prefix_cons, List.cons_prefix_cons] at hfront
    obtain ⟨rfl, rfl, -⟩ := hfront
    rw [append_of_closed _ _ (by simpa [endsWithSeparator] using hv)] at hjoined
    obtain rfl : path = host ++ w :: rest := by simpa using hjoined
    exact Or.inr (.separators x y host w rest hu hv hne hfree hhost hw)
  | x :: y :: z :: front =>
    rw [List.cons_prefix_cons, List.cons_prefix_cons] at hfront
    obtain ⟨rfl, rfl, hfront⟩ := hfront
    obtain ⟨more, rfl⟩ : z :: front <+: host := by
      refine List.prefix_of_prefix_length_le hfront (List.prefix_append host _) ?_
      simp only [List.length_cons] at hlength ⊢
      omega
    have hopen : endsWithSeparator (x :: y :: z :: front) = false :=
      endsWithSeparator_host x y (z :: front) (by simp)
        fun unit hunit => hfree unit (List.mem_append_left more hunit)
    rw [append_of_open _ _ hopen] at hjoined
    have htail : Separator.slash.unit :: path = more ++ w :: rest := by simpa using hjoined
    -- The separator put in between is the first one behind the host, so nothing of it is left over.
    cases more with
    | nil =>
      obtain ⟨rfl, rfl⟩ := List.cons.inj htail
      rw [List.append_nil] at hne hfree hhost
      exact Or.inr (.host x y (z :: front) path hu hv hne hfree hhost)
    | cons unit more =>
      obtain ⟨rfl, -⟩ := List.cons.inj htail
      exact absurd (hfree Separator.slash.unit (by simp)) (by decide)

end

theorem completes_of_form (base path : Text) (p : Prefix) (hinvalid : Prefix.length? base = none)
    (h : Prefix.Form (append base path) p) : ∃ rest, Completes base path rest := by
  have hnone : ¬ ∃ q, Prefix.Form base q := by
    rintro ⟨q, hq⟩
    rw [Prefix.length?_of_form base q hq] at hinvalid
    cases hinvalid
  have hbase : base ≠ [] := by
    rintro rfl
    exact hnone ⟨_, .empty⟩
  have hfront := prefix_append base path
  -- A base that held all of the prefix would be valid by itself.
  have hlength : base.length < p.length := by
    refine Nat.lt_of_not_ge fun hle => hnone ⟨p, ?_⟩
    obtain ⟨tail, htail⟩ := hfront
    rw [← htail] at h
    exact Prefix.form_front base tail p h hbase hle
  generalize hjoined : append base path = joined at h hfront
  cases h with
  | empty => exact absurd hlength (Nat.not_lt_zero _)
  | relative => exact absurd hlength (Nat.not_lt_zero _)
  | rootAbsolute => exact absurd (List.length_eq_zero_iff.mp (Nat.lt_one_iff.mp hlength)) hbase
  | driveRelative l rest hl =>
    exact absurd (exists_form_drive base hbase l rest hl (Nat.lt_succ_of_lt hlength) hfront) hnone
  | driveAbsolute l u rest hl =>
    exact absurd (exists_form_drive base hbase l (u :: rest) hl hlength hfront) hnone
  | unc u v host w rest hu hv hne hfree hhost hw =>
    have hshare := form_or_completes_share base hbase path u v host w rest hu hv hne hfree hhost hw
      hlength hjoined
    exact ⟨rest, hshare.resolve_left hnone⟩
  | bareHome => exact absurd (exists_form_home base hbase [] hfront) hnone
  | home u rest => exact absurd (exists_form_home base hbase (u :: rest) hfront) hnone
  | bareNamedHome name => exact absurd (exists_form_home base hbase name hfront) hnone
  | namedHome name w rest =>
    exact absurd (exists_form_home base hbase (name ++ w :: rest) hfront) hnone

/-! ## Joining -/

theorem join_of_relative (base path : Text) (hbase : base ≠ [])
    (hrelative : Prefix.length? path = some 0) (hnul : CodeUnit.nul ∉ base)
    (hnul' : CodeUnit.nul ∉ path) :
    join base path = .ok (Segments.normalize? .system .kept (append base path)) := by
  have hjoined : CodeUnit.nul ∉ append base path := by
    unfold append
    split
    · simp [hnul, hnul']
    · simpa [hnul, hnul'] using (by decide : CodeUnit.nul ≠ Separator.slash.unit)
  unfold join
  rw [hrelative]
  simp only [Nat.lt_irrefl, List.isEmpty_iff, hbase, or_self, if_false]
  exact normalize_of_not_nul .system .kept _ hjoined

/-- **Invalid parts of a join.** Nothing comes of an invalid path that is put behind another one. An
invalid path that another one is put behind comes to nothing either, unless the two complete a share
and no step behind it leads out of it. -/
theorem join_invalid_iff (base path : Text) (hbase : CodeUnit.nul ∉ base)
    (hpath : CodeUnit.nul ∉ path) :
    (Prefix.length? path = none → join base path = .ok none) ∧
      (Prefix.length? path = some 0 → Prefix.length? base = none →
        (join base path = .ok none ↔ ∀ rest, Completes base path rest →
          Segments.resolve [] (rest.splitOnP Separator.isUnit) = none)) := by
  constructor
  · intro hinvalid
    unfold join
    rw [hinvalid]
  · intro hrelative hinvalid
    have hne : base ≠ [] := by
      rintro rfl
      cases hinvalid
    rw [join_of_relative base path hne hrelative hbase hpath, Except.ok.injEq]
    constructor
    · intro hnone rest hcompletes
      obtain ⟨n, hform, hrest⟩ := form_of_completes base path rest hcompletes
      rw [Segments.normalize?_eq, Prefix.length?_of_form _ _ hform, Option.bind_some,
        Option.map_eq_none_iff, hrest] at hnone
      exact hnone
    · intro hnone
      rw [Segments.normalize?_eq]
      cases hlength : Prefix.length? (append base path) with
      | none => rfl
      | some n =>
        -- Only a share can be found here, and its prefix ends in front of `rest`.
        obtain ⟨kind, hform⟩ := (Prefix.length?_eq_some_iff_form _ n).mp hlength
        obtain ⟨rest, hcompletes⟩ := completes_of_form base path _ hinvalid hform
        obtain ⟨m, hshare, hrest⟩ := form_of_completes base path rest hcompletes
        obtain rfl : n = m := congrArg Prefix.length (Prefix.form_unique _ _ _ hform hshare)
        rw [Option.bind_some, Option.map_eq_none_iff, hrest]
        exact hnone rest hcompletes

theorem join_out_of_host :
    CodeUnit.nul ∉ [CodeUnit.slash, CodeUnit.slash, 0x68] ∧
      CodeUnit.nul ∉ [CodeUnit.dot, CodeUnit.dot] ∧
      Prefix.length? [CodeUnit.dot, CodeUnit.dot] = some 0 ∧
      Prefix.length? [CodeUnit.slash, CodeUnit.slash, 0x68] = none ∧
      join [CodeUnit.slash, CodeUnit.slash, 0x68] [CodeUnit.dot, CodeUnit.dot] = .ok none := by
  have hpath : Prefix.length? [CodeUnit.dot, CodeUnit.dot] = some 0 := by decide
  have hbase : Prefix.length? [CodeUnit.slash, CodeUnit.slash, 0x68] = none := by decide
  refine ⟨by decide, by decide, hpath, hbase, ?_⟩
  refine ((join_invalid_iff _ _ (by decide) (by decide)).2 hpath hbase).mpr fun rest h => ?_
  cases h with
  | host => decide

/-- The invalid path `//h` becomes a share by the name `x` behind it. -/
theorem join_completes_host :
    ¬ ∀ base path : Text, CodeUnit.nul ∉ base → CodeUnit.nul ∉ path →
      (Prefix.length? path = none ∨
        Prefix.length? path = some 0 ∧ Prefix.length? base = none) →
      join base path = .ok none := by
  intro hall
  have hnone := hall [CodeUnit.slash, CodeUnit.slash, 0x68] [0x78] (by decide) (by decide)
    (Or.inr ⟨by decide, by decide⟩)
  exact absurd hnone (by decide +kernel)

end LexicalPath.Path
