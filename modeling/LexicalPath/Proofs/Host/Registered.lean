import LexicalPath.Proofs.Host.Ipv6
import LexicalPath.Separator
import Mathlib.Logic.Basic

/-!
# The grammar of registered names

A name is a row of labels with single dots in between and possibly one more at the end. Every IPv4
address is such a name and no IPv6 address is one, for an IPv6 address cannot do without a colon. So
a host is either an IPv6 address or a registered name.
-/

namespace LexicalPath

/-! ## Names -/

namespace RegisteredName

/-- An ASCII letter or digit, and letters, digits and hyphens behind it. -/
inductive Label : Text → Prop where
  | mk (u : CodeUnit) (rest : Text) (hu : isAlphanumeric u = true)
      (hrest : ∀ v ∈ rest, isAlphanumeric v = true ∨ v = CodeUnit.hyphen) : Label (u :: rest)

inductive Form : Text → Prop where
  | joined (labels : List Text) (hne : labels ≠ []) (hlabels : ∀ l ∈ labels, Label l) :
      Form ([CodeUnit.dot].intercalate labels)
  | closed (labels : List Text) (hne : labels ≠ []) (hlabels : ∀ l ∈ labels, Label l) :
      Form ([CodeUnit.dot].intercalate labels ++ [CodeUnit.dot])

theorem isLabel_iff_label (t : Text) : isLabel t = true ↔ Label t := by
  cases t with
  | nil => exact iff_of_false Bool.false_ne_true nofun
  | cons u rest =>
    simp only [isLabel, Bool.and_eq_true, List.all_eq_true, Bool.or_eq_true, beq_iff_eq]
    constructor
    · rintro ⟨hu, hrest⟩
      exact .mk u rest hu hrest
    · intro h
      cases h with
      | mk _ _ hu hrest => exact ⟨hu, hrest⟩

theorem Label.ne_nil (t : Text) (h : Label t) : t ≠ [] := by
  cases h
  exact List.cons_ne_nil _ _

theorem Label.mem (t : Text) (h : Label t) (u : CodeUnit) (hu : u ∈ t) :
    isAlphanumeric u = true ∨ u = CodeUnit.hyphen := by
  cases h with
  | mk v rest hv hrest =>
    rcases List.mem_cons.mp hu with rfl | hu
    · exact Or.inl hv
    · exact hrest u hu

theorem Label.dot_not_mem (t : Text) (h : Label t) : CodeUnit.dot ∉ t := by
  intro hdot
  rcases h.mem t _ hdot with hdot | hdot <;> exact absurd hdot (by decide)

theorem areLabels_iff (ls : List Text) :
    areLabels ls = true ↔
      ∃ labels, (∀ l ∈ labels, Label l) ∧ (ls = labels ∨ ls = labels ++ [[]]) := by
  constructor
  · intro h
    induction ls with
    | nil => exact ⟨[], by simp, Or.inl rfl⟩
    | cons l ls ih =>
      rw [areLabels] at h
      split at h
      · next hempty =>
        rw [List.isEmpty_iff] at hempty h
        exact ⟨[], by simp, Or.inr (by simp [hempty, h])⟩
      · rw [Bool.and_eq_true, isLabel_iff_label] at h
        obtain ⟨labels, hlabels, hls⟩ := ih h.2
        refine ⟨l :: labels, List.forall_mem_cons.mpr ⟨h.1, hlabels⟩, ?_⟩
        simpa using hls
  · rintro ⟨labels, hlabels, hls⟩
    induction labels generalizing ls with
    | nil => rcases hls with rfl | rfl <;> rfl
    | cons l labels ih =>
      rw [List.forall_mem_cons] at hlabels
      obtain ⟨rest, rfl, hrest⟩ :
          ∃ rest, ls = l :: rest ∧ (rest = labels ∨ rest = labels ++ [[]]) := by
        rcases hls with rfl | rfl
        · exact ⟨labels, rfl, Or.inl rfl⟩
        · exact ⟨labels ++ [[]], rfl, Or.inr rfl⟩
      rw [areLabels, if_neg (by simpa using hlabels.1.ne_nil), Bool.and_eq_true, isLabel_iff_label]
      exact ⟨hlabels.1, ih rest hlabels.2 hrest⟩

section

variable (labels : List Text) (hne : labels ≠ []) (hlabels : ∀ l ∈ labels, Label l)

include hne hlabels

theorem splitOnP_joined :
    ([CodeUnit.dot].intercalate labels).splitOnP (· == CodeUnit.dot) = labels :=
  List.splitOn_intercalate CodeUnit.dot (fun l hl => (hlabels l hl).dot_not_mem) hne

theorem splitOnP_closed :
    ([CodeUnit.dot].intercalate labels ++ [CodeUnit.dot]).splitOnP (· == CodeUnit.dot) =
      labels ++ [[]] := by
  rw [List.splitOnP_append_cons _ [] (by decide), splitOnP_joined labels hne hlabels,
    List.splitOnP_nil]

end

theorem eq_of_splitOnP_dot (s t : Text)
    (h : s.splitOnP (· == CodeUnit.dot) = t.splitOnP (· == CodeUnit.dot)) : s = t :=
  calc
    s = [CodeUnit.dot].intercalate (s.splitOnP (· == CodeUnit.dot)) :=
      (List.intercalate_splitOn CodeUnit.dot).symm
    _ = [CodeUnit.dot].intercalate (t.splitOnP (· == CodeUnit.dot)) := by rw [h]
    _ = t := List.intercalate_splitOn CodeUnit.dot

theorem isName_iff_form (t : Text) (hne : t ≠ []) : isName t = true ↔ Form t := by
  unfold isName
  rw [areLabels_iff]
  constructor
  · rintro ⟨labels, hlabels, hsplit | hsplit⟩
    · have hnonempty : labels ≠ [] := hsplit ▸ List.splitOnP_ne_nil _ t
      rw [eq_of_splitOnP_dot t _ (hsplit.trans (splitOnP_joined labels hnonempty hlabels).symm)]
      exact .joined labels hnonempty hlabels
    · have hnonempty : labels ≠ [] := by
        rintro rfl
        exact hne (eq_of_splitOnP_dot t [] hsplit)
      rw [eq_of_splitOnP_dot t _ (hsplit.trans (splitOnP_closed labels hnonempty hlabels).symm)]
      exact .closed labels hnonempty hlabels
  · intro h
    cases h with
    | joined labels hnonempty hlabels =>
      exact ⟨labels, hlabels, Or.inl (splitOnP_joined labels hnonempty hlabels)⟩
    | closed labels hnonempty hlabels =>
      exact ⟨labels, hlabels, Or.inr (splitOnP_closed labels hnonempty hlabels)⟩

theorem name_units (t : Text) (h : isName t = true) :
    ∀ u ∈ t, isAlphanumeric u = true ∨ u = CodeUnit.hyphen ∨ u = CodeUnit.dot := by
  intro u hu
  by_cases hdot : u = CodeUnit.dot
  · exact Or.inr (Or.inr hdot)
  obtain ⟨labels, hlabels, hsplit⟩ := (areLabels_iff _).mp h
  obtain ⟨piece, hpiece, hmem⟩ :=
    exists_mem_splitOnP (· == CodeUnit.dot) t u hu (by simpa using hdot)
  have hlabel : Label piece := by
    apply hlabels
    rcases hsplit with hsplit | hsplit
    · rwa [hsplit] at hpiece
    · rw [hsplit, List.mem_append, List.mem_singleton] at hpiece
      exact hpiece.resolve_right (List.ne_nil_of_mem hmem)
  exact (hlabel.mem piece u hmem).imp_right Or.inl

end RegisteredName

/-! ## Addresses -/

theorem Ipv4.label_of_isOctet (t : Text) (h : isOctet t = true) : RegisteredName.Label t := by
  have hdigits : ∀ u ∈ t, RegisteredName.isAlphanumeric u = true := by
    intro u hu
    unfold RegisteredName.isAlphanumeric
    rw [isDigit_of_mem_octet t h u hu, Bool.or_true]
  cases t with
  | nil => exact absurd h (by decide)
  | cons u rest =>
    rw [List.forall_mem_cons] at hdigits
    exact .mk u rest hdigits.1 fun v hv => Or.inl (hdigits.2 v hv)

theorem Ipv4.isName_of_isAddress (t : Text) (h : isAddress t = true) :
    RegisteredName.isName t = true := by
  rw [isAddress, Bool.and_eq_true, List.all_eq_true] at h
  refine (RegisteredName.areLabels_iff _).mpr ⟨_, ?_, Or.inl rfl⟩
  exact fun l hl => label_of_isOctet l (h.2 l hl)

namespace Ipv6

theorem isAddress_cases (t : Text) (h : isAddress t = true) :
    (∃ gs, Row gs 8 ∧ t = joined gs) ∨
      ∃ front back n, (∀ g ∈ front, IsGroup g) ∧ Row back n ∧
        t = joined front ++ doubleColon ++ joined back := by
  by_cases hdouble : doubleColon <:+: t
  · obtain ⟨front, back, rfl, hfirst⟩ := exists_first t hdouble
    obtain ⟨-, hgroups, n, hrow, -⟩ := (isAddress_compressed_iff front back hfirst).mp h
    exact Or.inr ⟨row front, row back, n, hgroups, hrow, by rw [joined_row, joined_row]⟩
  · obtain ⟨-, hrow⟩ := (isAddress_full_iff t hdouble).mp h
    exact Or.inl ⟨row t, hrow, (joined_row t).symm⟩

theorem forall_mem_joined (p : CodeUnit → Prop) (hcolon : p CodeUnit.colon) (gs : List Text)
    (hgs : ∀ g ∈ gs, ∀ u ∈ g, p u) : ∀ u ∈ joined gs, p u := by
  induction gs with
  | nil => exact nofun
  | cons g gs ih =>
    rw [List.forall_mem_cons] at hgs
    by_cases hne : gs = []
    · rw [hne, joined, List.intercalate_singleton]
      exact hgs.1
    · have hjoined : joined (g :: gs) = joined [g] ++ CodeUnit.colon :: joined gs :=
        joined_append [g] gs (by simp) hne
      rw [hjoined, List.forall_mem_append, List.forall_mem_cons, joined, List.intercalate_singleton]
      exact ⟨hgs.1, hcolon, ih hgs.2⟩

theorem row_units (gs : List Text) (n : Nat) (h : Row gs n) :
    ∀ g ∈ gs, ∀ u ∈ g, u.isHexDigit = true ∨ u = CodeUnit.dot := by
  induction h with
  | nil => simp
  | address t ht =>
    rw [List.forall_mem_singleton]
    intro u hu
    rcases Ipv4.mem_dotted t ht u hu with hdot | hdigit
    · exact Or.inr hdot
    · left
      rw [CodeUnit.isHexDigit, hdigit, Bool.true_or, Bool.true_or]
  | group g gs n hg hgs ih =>
    rw [List.forall_mem_cons]
    exact ⟨fun u hu => Or.inl (hg.digits u hu), ih⟩

theorem address_units (t : Text) (h : isAddress t = true) :
    ∀ u ∈ t, u.isHexDigit = true ∨ u = CodeUnit.dot ∨ u = CodeUnit.colon := by
  have hjoined := forall_mem_joined
    (fun u => u.isHexDigit = true ∨ u = CodeUnit.dot ∨ u = CodeUnit.colon) (Or.inr (Or.inr rfl))
  rcases isAddress_cases t h with ⟨gs, hrow, rfl⟩ | ⟨front, back, n, hfront, hback, rfl⟩
  · exact hjoined gs fun g hg u hu => (row_units gs 8 hrow g hg u hu).imp_right Or.inl
  · rw [List.forall_mem_append, List.forall_mem_append]
    refine ⟨⟨?_, by simp [doubleColon]⟩, ?_⟩
    · exact hjoined front fun g hg u hu => Or.inl ((hfront g hg).digits u hu)
    · exact hjoined back fun g hg u hu => (row_units back n hback g hg u hu).imp_right Or.inl

/-- No group counts for eight, so there is a colon in every address. -/
theorem colon_mem_address (t : Text) (h : isAddress t = true) : CodeUnit.colon ∈ t := by
  rcases isAddress_cases t h with ⟨gs, hrow, rfl⟩ | ⟨front, back, n, hfront, hback, rfl⟩
  · cases hrow with
    | group g gs _ hg hgs =>
      cases hgs with
      | group g' gs =>
        have hjoined : joined (g :: g' :: gs) = joined [g] ++ CodeUnit.colon :: joined (g' :: gs) :=
          joined_append [g] (g' :: gs) (by simp) (by simp)
        rw [hjoined]
        exact List.mem_append_right _ List.mem_cons_self
  · simp [doubleColon]

end Ipv6

/-! ## Hosts -/

namespace Host

open RegisteredName

theorem isAlphanumeric_of_isHexDigit (u : CodeUnit) (h : u.isHexDigit = true) :
    isAlphanumeric u = true := by
  simp only [CodeUnit.isHexDigit, isAlphanumeric, CodeUnit.isLetter, CodeUnit.isDigit,
    Bool.or_eq_true, Bool.and_eq_true, decide_eq_true_eq] at h ⊢
  omega

theorem isValid_iff (t : Text) :
    isValid t = true ↔ Ipv6.isAddress t = true ∨ isName t = true := by
  rw [isValid, Bool.or_eq_true, Bool.or_eq_true]
  constructor
  · rintro ((h | h) | h)
    · exact Or.inr (Ipv4.isName_of_isAddress t h)
    · exact Or.inl h
    · exact Or.inr h
  · rintro (h | h)
    · exact Or.inl (Or.inr h)
    · exact Or.inr h

theorem not_address_and_name (t : Text) : ¬ (Ipv6.isAddress t = true ∧ isName t = true) := by
  rintro ⟨haddress, hname⟩
  have hcolon := name_units t hname _ (Ipv6.colon_mem_address t haddress)
  exact absurd hcolon (by decide)

theorem host_units (t : Text) (h : isValid t = true) :
    ∀ u ∈ t, isAlphanumeric u = true ∨ u = CodeUnit.hyphen ∨ u = CodeUnit.dot ∨
      u = CodeUnit.colon := by
  intro u hu
  rcases (isValid_iff t).mp h with h | h
  · exact (Ipv6.address_units t h u hu).imp (isAlphanumeric_of_isHexDigit u) Or.inr
  · rcases name_units t h u hu with hu | hu | hu
    · exact Or.inl hu
    · exact Or.inr (Or.inl hu)
    · exact Or.inr (Or.inr (Or.inl hu))

theorem isPlain_of_hostUnit (u : CodeUnit)
    (h : isAlphanumeric u = true ∨ u = CodeUnit.hyphen ∨ u = CodeUnit.dot ∨ u = CodeUnit.colon) :
    Separator.isUnit u = false ∧ u ≠ CodeUnit.ofChar '_' ∧ u.toNat < 128 := by
  rcases h with h | rfl | rfl | rfl
  · have hbounds : u.toNat < 128 ∧ u.toNat ≠ 47 ∧ u.toNat ≠ 92 ∧ u.toNat ≠ 95 := by
      simp only [isAlphanumeric, CodeUnit.isLetter, CodeUnit.isDigit, Bool.or_eq_true,
        Bool.and_eq_true, decide_eq_true_eq] at h
      omega
    obtain ⟨hascii, hslash, hbackslash, hunderscore⟩ := hbounds
    refine ⟨?_, fun hu => hunderscore (congrArg UInt16.toNat hu), hascii⟩
    rw [Bool.eq_false_iff, Ne, Separator.isUnit_iff]
    rintro (hu | hu)
    · exact hslash (congrArg UInt16.toNat hu)
    · exact hbackslash (congrArg UInt16.toNat hu)
  all_goals decide

/-- **Hosts.** The registered names are the rows of labels, every IPv4 address is one of them, and
no IPv6 address is. So a host is an IPv6 address or a row of labels, but not both, and nothing else
than plain ASCII is in it. -/
theorem isValid_address_xor_name (t : Text) :
    (t ≠ [] → (isName t = true ↔ RegisteredName.Form t)) ∧
      (Ipv4.isAddress t = true → isName t = true) ∧
      ¬ (Ipv6.isAddress t = true ∧ isName t = true) ∧
      (t ≠ [] → (isValid t = true ↔ Xor (Ipv6.isAddress t = true) (RegisteredName.Form t))) ∧
      (isValid t = true → ∀ u ∈ t,
        Separator.isUnit u = false ∧ u ≠ CodeUnit.ofChar '_' ∧ u.toNat < 128) := by
  have hdisjoint := not_address_and_name t
  refine ⟨isName_iff_form t, Ipv4.isName_of_isAddress t, hdisjoint, ?_, ?_⟩
  · intro hne
    rw [isValid_iff, ← isName_iff_form t hne, xor_iff_or_and_not_and]
    exact (and_iff_left hdisjoint).symm
  · intro h u hu
    exact isPlain_of_hostUnit u (host_units t h u hu)

theorem isValid_address_xor_name_kinds :
    RegisteredName.Form [0x61, CodeUnit.dot, 0x62, CodeUnit.hyphen, CodeUnit.dot] ∧
      Ipv4.isAddress [0x31, CodeUnit.dot, 0x32, CodeUnit.dot, 0x33, CodeUnit.dot, 0x34] = true ∧
      isName [0x31, CodeUnit.dot, 0x32, CodeUnit.dot, 0x33, CodeUnit.dot, 0x34] = true ∧
      isValid [CodeUnit.colon, CodeUnit.colon, 0x31] = true ∧
      Xor (Ipv6.isAddress [CodeUnit.colon, CodeUnit.colon, 0x31] = true)
        (RegisteredName.Form [CodeUnit.colon, CodeUnit.colon, 0x31]) ∧
      Separator.isUnit CodeUnit.colon = false := by
  obtain ⟨hform, -, -, -, -⟩ := isValid_address_xor_name
    [0x61, CodeUnit.dot, 0x62, CodeUnit.hyphen, CodeUnit.dot]
  obtain ⟨-, hname, -, -, -⟩ := isValid_address_xor_name
    [0x31, CodeUnit.dot, 0x32, CodeUnit.dot, 0x33, CodeUnit.dot, 0x34]
  obtain ⟨-, -, -, hvalid, hplain⟩ := isValid_address_xor_name
    [CodeUnit.colon, CodeUnit.colon, 0x31]
  have haddress : Ipv4.isAddress
      [0x31, CodeUnit.dot, 0x32, CodeUnit.dot, 0x33, CodeUnit.dot, 0x34] = true := by decide
  have hloopback : isValid [CodeUnit.colon, CodeUnit.colon, 0x31] = true := by decide
  exact ⟨(hform (by decide)).mp (by decide), haddress, hname haddress, hloopback,
    (hvalid (by decide)).mp hloopback, (hplain hloopback _ List.mem_cons_self).1⟩

end Host

end LexicalPath
