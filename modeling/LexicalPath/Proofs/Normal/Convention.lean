import LexicalPath.Proofs.Normal.Reference

/-!
# Both conventions mean the same

Two texts are alike if they differ only in which of the two separators they use. Alike paths have
the same prefix and the same normal forms, but for one exception: a colon may follow a slash at the
start of a path and may not follow a backslash there.
-/

namespace LexicalPath

namespace Text

/-! ## Alike texts -/

def Alike (s t : Text) : Prop := s.withSeparator .slash = t.withSeparator .slash

theorem Alike.symm (s t : Text) (h : Alike s t) : Alike t s := Eq.symm h

theorem alike_nil (t : Text) (h : Alike [] t) : t = [] := List.map_eq_nil_iff.mp (Eq.symm h)

theorem alike_cons (u : CodeUnit) (s t : Text) (h : Alike (u :: s) t) :
    ∃ v t', t = v :: t' ∧ Separator.isUnit v = Separator.isUnit u ∧
      (Separator.isUnit u = false → v = u) ∧ Alike s t' := by
  cases t with
  | nil => cases h
  | cons v t =>
    obtain ⟨hhead, htail⟩ := List.cons.inj h
    dsimp only at hhead
    have hunit : Separator.isUnit v = Separator.isUnit u := by
      rw [Bool.eq_iff_iff, ← rewritten_eq_unit_iff .slash u, hhead, rewritten_eq_unit_iff]
    refine ⟨v, t, rfl, hunit, ?_, htail⟩
    intro hu
    unfold Alike at h
    rw [withSeparator_cons_other u s .slash hu,
      withSeparator_cons_other v t .slash (hunit.trans hu)] at h
    exact (List.cons.inj h).1.symm

theorem alike_append (name s t : Text) (hname : SeparatorFree name) (h : Alike (name ++ s) t) :
    ∃ t', t = name ++ t' ∧ Alike s t' := by
  induction name generalizing t with
  | nil => exact ⟨t, rfl, h⟩
  | cons u name ih =>
    rw [separatorFree_cons] at hname
    obtain ⟨v, t, rfl, -, hv, htail⟩ := alike_cons u _ t h
    obtain ⟨t', rfl, ht'⟩ := ih t hname.2 htail
    exact ⟨t', by rw [hv hname.1]; rfl, ht'⟩

theorem Alike.head_isUnit (s t : Text) (h : Alike s t) :
    s.head?.any Separator.isUnit = t.head?.any Separator.isUnit := by
  cases s with
  | nil => rw [alike_nil t h]
  | cons u s =>
    obtain ⟨v, t, rfl, hunit, -⟩ := alike_cons u s t h
    simp [hunit]

theorem Alike.head_other (s t : Text) (c : CodeUnit) (hc : Separator.isUnit c = false)
    (h : Alike s t) (hs : s.head? = some c) : t.head? = some c := by
  obtain ⟨s, rfl⟩ := List.head?_eq_some_iff.mp hs
  obtain ⟨v, t, rfl, -, hv, -⟩ := alike_cons c s t h
  rw [hv hc]
  rfl

theorem withSeparator_twice (t : Text) (a b : Separator) :
    (t.withSeparator a).withSeparator b = t.withSeparator b := by
  induction t with
  | nil => rfl
  | cons u t ih =>
    cases hu : Separator.isUnit u with
    | true =>
      rw [withSeparator_cons_separator u t a hu, withSeparator_cons_separator u t b hu,
        withSeparator_cons_separator _ _ b a.isUnit_unit, ih]
    | false =>
      rw [withSeparator_cons_other u t a hu, withSeparator_cons_other u t b hu,
        withSeparator_cons_other _ _ b hu, ih]

theorem Alike.withSeparator (s t : Text) (sep : Separator) (h : Alike s t) :
    s.withSeparator sep = t.withSeparator sep := by
  rw [← withSeparator_twice s .slash sep, h, withSeparator_twice]

theorem Alike.length (s t : Text) (h : Alike s t) : s.length = t.length := by
  rw [← withSeparator_length s .slash, h, withSeparator_length]

theorem Alike.take (s t : Text) (n : Nat) (h : Alike s t) : Alike (s.take n) (t.take n) := by
  unfold Alike Text.withSeparator replaceUnit at *
  rw [List.map_take, h, List.map_take]

theorem Alike.drop (s t : Text) (n : Nat) (h : Alike s t) : Alike (s.drop n) (t.drop n) := by
  unfold Alike Text.withSeparator replaceUnit at *
  rw [List.map_drop, h, List.map_drop]

theorem Alike.splitOnP (s t : Text) (h : Alike s t) :
    s.splitOnP Separator.isUnit = t.splitOnP Separator.isUnit := by
  induction s generalizing t with
  | nil => rw [alike_nil t h]
  | cons u s ih =>
    obtain ⟨v, t, rfl, hunit, hv, htail⟩ := alike_cons u s t h
    rw [List.splitOnP_cons_eq_if_modifyHead, List.splitOnP_cons_eq_if_modifyHead, hunit,
      ih t htail]
    split
    · rfl
    · next hu => rw [hv (by simpa using hu)]

theorem Alike.mem (s t : Text) (c : CodeUnit) (hc : Separator.isUnit c = false) (h : Alike s t)
    (hs : c ∈ s) : c ∈ t := by
  induction s generalizing t with
  | nil => cases hs
  | cons u s ih =>
    obtain ⟨v, t, rfl, -, hv, htail⟩ := alike_cons u s t h
    rcases List.mem_cons.mp hs with rfl | hs
    · rw [hv hc]
      exact List.mem_cons_self
    · exact List.mem_cons_of_mem v (ih t htail hs)

end Text

/-! ## Their prefixes -/

namespace Prefix

open Text

/-- The start of the only paths that lose their meaning with the other separator. -/
def colonRoot : Text := [CodeUnit.backslash, CodeUnit.colon]

theorem length?_colonRoot (path : Text) (h : colonRoot <+: path) : length? path = none := by
  obtain ⟨rest, rfl⟩ := h
  rfl

theorem separatorFree_tilde : SeparatorFree [CodeUnit.tilde] := by
  simp [SeparatorFree, Separator.isUnit_tilde]

theorem form_alike (p q : Text) (pre : Prefix) (h : Alike p q) (hq : ¬ colonRoot <+: q)
    (hform : Form p pre) : Form q pre := by
  cases hform with
  | empty =>
    rw [alike_nil q h]
    exact .empty
  | relative u rest htilde hcolon hu hsecond =>
    obtain ⟨v, rest', rfl, -, hv, hrest⟩ := alike_cons u rest q h
    obtain rfl := hv hu
    apply Form.relative v rest' htilde hcolon hu
    intro hhead
    exact hsecond (hrest.symm.head_other _ _ _ Separator.isUnit_colon hhead)
  | rootAbsolute u rest hu hrest hcolon =>
    obtain ⟨v, rest', rfl, hunit, -, htail⟩ := alike_cons u rest q h
    apply Form.rootAbsolute v rest' (hunit.trans hu)
    · rw [← htail.head_isUnit, hrest]
    · rintro ⟨rfl, hhead⟩
      obtain ⟨rest', rfl⟩ := List.head?_eq_some_iff.mp hhead
      exact hq ⟨rest', rfl⟩
  | driveRelative l rest hl hrest =>
    have hletter := (CodeUnit.isLetter_ne_unit l hl).2.2
    obtain ⟨v, t, rfl, -, hv, htail⟩ := alike_cons l _ q h
    obtain ⟨w, rest', rfl, -, hw, htail'⟩ := alike_cons _ rest t htail
    rw [hv hletter, hw Separator.isUnit_colon]
    apply Form.driveRelative l rest' hl
    rw [← htail'.head_isUnit, hrest]
  | driveAbsolute l u rest hl hu =>
    have hfree : SeparatorFree [l, CodeUnit.colon] := by
      simp [SeparatorFree, (CodeUnit.isLetter_ne_unit l hl).2.2, Separator.isUnit_colon]
    obtain ⟨t, rfl, htail⟩ := alike_append [l, CodeUnit.colon] (u :: rest) q hfree h
    obtain ⟨v, rest', rfl, hunit, -⟩ := alike_cons u rest t htail
    exact .driveAbsolute l v rest' hl (hunit.trans hu)
  | unc u v host w rest hu hv hne hfree hhost hw =>
    obtain ⟨u', t₁, rfl, hu', -, h₁⟩ := alike_cons u _ q h
    obtain ⟨v', t₂, rfl, hv', -, h₂⟩ := alike_cons v _ t₁ h₁
    obtain ⟨t₃, rfl, h₃⟩ := alike_append host (w :: rest) t₂ hfree h₂
    obtain ⟨w', rest', rfl, hw', -⟩ := alike_cons w rest t₃ h₃
    exact .unc u' v' host w' rest' (hu'.trans hu) (hv'.trans hv) hne hfree hhost (hw'.trans hw)
  | bareHome =>
    obtain ⟨t, rfl, ht⟩ := alike_append [CodeUnit.tilde] [] q separatorFree_tilde h
    rw [alike_nil t ht]
    exact .bareHome
  | home u rest hu =>
    obtain ⟨t, rfl, ht⟩ := alike_append [CodeUnit.tilde] (u :: rest) q separatorFree_tilde h
    obtain ⟨v, rest', rfl, hunit, -⟩ := alike_cons u rest t ht
    exact .home v rest' (hunit.trans hu)
  | bareNamedHome name hne hfree =>
    obtain ⟨t, rfl, ht⟩ := alike_append [CodeUnit.tilde] name q separatorFree_tilde h
    obtain ⟨t', rfl, ht'⟩ := alike_append name [] t hfree (by rwa [List.append_nil])
    rw [alike_nil t' ht', List.append_nil]
    exact .bareNamedHome name hne hfree
  | namedHome name w rest hne hfree hw =>
    obtain ⟨t, rfl, ht⟩ := alike_append [CodeUnit.tilde] (name ++ w :: rest) q separatorFree_tilde h
    obtain ⟨t', rfl, ht'⟩ := alike_append name (w :: rest) t hfree ht
    obtain ⟨w', rest', rfl, hw', -⟩ := alike_cons w rest t' ht'
    exact .namedHome name w' rest' hne hfree (hw'.trans hw)

theorem parse?_alike (p q : Text) (h : Alike p q) (hroot : colonRoot <+: p ↔ colonRoot <+: q) :
    parse? p = parse? q := by
  by_cases hp : colonRoot <+: p
  · unfold parse?
    rw [length?_colonRoot p hp, length?_colonRoot q (hroot.mp hp)]
    rfl
  · apply Option.ext
    intro pre
    rw [parse?_eq_some_iff_form, parse?_eq_some_iff_form]
    constructor
    · exact form_alike p q pre h (mt hroot.mpr hp)
    · exact form_alike q p pre h.symm hp

theorem length?_alike (p q : Text) (h : Alike p q) (hroot : colonRoot <+: p ↔ colonRoot <+: q) :
    length? p = length? q := by
  have hlength : ∀ path, length? path = (parse? path).map Prefix.length := by
    intro path
    unfold parse?
    cases length? path <;> rfl
  rw [hlength, hlength, parse?_alike p q h hroot]

theorem length?_ne_of_colonRoot (p q : Text) (h : Alike p q) (hp : colonRoot <+: p)
    (hq : ¬ colonRoot <+: q) : length? p ≠ length? q := by
  rw [length?_colonRoot p hp]
  obtain ⟨rest, rfl⟩ := hp
  obtain ⟨v, t, rfl, hunit, -, ht⟩ := alike_cons CodeUnit.backslash (CodeUnit.colon :: rest) q h
  obtain ⟨w, rest', rfl, -, hw, -⟩ := alike_cons CodeUnit.colon rest t ht
  obtain rfl := hw Separator.isUnit_colon
  rcases (Separator.isUnit_iff v).mp (hunit.trans rfl) with rfl | rfl
  · nofun
  · exact absurd ⟨rest', rfl⟩ hq

end Prefix

/-! ## Their normal forms -/

namespace Path

open Text

theorem normalize?_alike (p q : Text) (h : Alike p q)
    (hlength : Prefix.length? p = Prefix.length? q) (sep : Separator) (ending : Ending) :
    Segments.normalize? sep ending p = Segments.normalize? sep ending q := by
  unfold Segments.normalize? Segments.anchor
  rw [hlength]
  congr 1
  funext start
  rw [(h.take _ _ start).withSeparator, h.length, (h.drop _ _ start).splitOnP]

theorem normalize_alike (p q : Text) (h : Alike p q) (hlength : Prefix.length? p = Prefix.length? q)
    (sep : Separator) (ending : Ending) : normalize sep ending p = normalize sep ending q := by
  have hnul : CodeUnit.nul ∈ p ↔ CodeUnit.nul ∈ q :=
    ⟨h.mem _ _ _ (by decide), h.symm.mem _ _ _ (by decide)⟩
  by_cases hp : CodeUnit.nul ∈ p
  · unfold normalize
    rw [clean_of_nul p hp, clean_of_nul q (hnul.mp hp)]
  · rw [normalize_of_not_nul sep ending p hp, normalize_of_not_nul sep ending q (mt hnul.mpr hp),
      normalize?_alike p q h hlength]

/-- **Both conventions.** Paths that become equal when both separators are written as slashes have
the same prefix and the same normal forms, if none or both of them start with a backslash and a
colon. If one of them does, they have not. -/
theorem conventions_agree_iff (p q : Text) (h : p.withSeparator .slash = q.withSeparator .slash) :
    (Prefix.length? p = Prefix.length? q ∧ Prefix.parse? p = Prefix.parse? q ∧
        ∀ sep ending, normalize sep ending p = normalize sep ending q) ↔
      (Prefix.colonRoot <+: p ↔ Prefix.colonRoot <+: q) := by
  constructor
  · rintro ⟨hlength, -, -⟩
    constructor
    · intro hp
      by_contra hq
      exact Prefix.length?_ne_of_colonRoot p q h hp hq hlength
    · intro hq
      by_contra hp
      exact Prefix.length?_ne_of_colonRoot q p h.symm hq hp hlength.symm
  · intro hroot
    have hlength := Prefix.length?_alike p q h hroot
    exact ⟨hlength, Prefix.parse?_alike p q h hroot, normalize_alike p q h hlength⟩

theorem conventions_agree_share :
    Text.withSeparator [CodeUnit.backslash, CodeUnit.backslash, 0x68, CodeUnit.slash, 0x61,
        CodeUnit.backslash, CodeUnit.dot, CodeUnit.dot, CodeUnit.backslash, 0x62] .slash =
      Text.withSeparator [CodeUnit.slash, CodeUnit.slash, 0x68, CodeUnit.backslash, 0x61,
        CodeUnit.slash, CodeUnit.dot, CodeUnit.dot, CodeUnit.slash, 0x62] .slash ∧
      ∀ sep ending, normalize sep ending [CodeUnit.backslash, CodeUnit.backslash, 0x68,
          CodeUnit.slash, 0x61, CodeUnit.backslash, CodeUnit.dot, CodeUnit.dot, CodeUnit.backslash,
          0x62] =
        normalize sep ending [CodeUnit.slash, CodeUnit.slash, 0x68, CodeUnit.backslash, 0x61,
          CodeUnit.slash, CodeUnit.dot, CodeUnit.dot, CodeUnit.slash, 0x62] := by
  refine ⟨by decide, ?_⟩
  exact ((conventions_agree_iff _ _ (by decide)).mpr (by decide)).2.2

/-- The file `:` in the root is reached as `/:` but not as `\:`. -/
theorem conventions_differ_colon :
    ¬ ∀ p q : Text, CodeUnit.nul ∉ p → CodeUnit.nul ∉ q →
      p.withSeparator .slash = q.withSeparator .slash →
        Prefix.length? p = Prefix.length? q ∧ Prefix.parse? p = Prefix.parse? q ∧
          ∀ sep ending, normalize sep ending p = normalize sep ending q := by
  intro h
  have hlength := (h [CodeUnit.slash, CodeUnit.colon] [CodeUnit.backslash, CodeUnit.colon]
    (by decide) (by decide) (by decide)).1
  exact absurd hlength (by decide)

end Path

end LexicalPath
