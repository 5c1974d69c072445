import LexicalPath.Proofs.Host.Ipv4
import Mathlib.Data.List.DropRight
import Mathlib.Tactic.Push

/-!
# The grammar of IPv6 addresses

An address is a row of groups with single colons in between, or two rows with the double colon
between them. Such rows are the texts without a colon at either end and without two adjoining ones,
so the double colon is where the first two colons adjoin.
-/

namespace LexicalPath.Ipv6

/-! ## The grammar -/

/-- Up to four hexadecimal digits. -/
structure IsGroup (g : Text) : Prop where
  nonempty : g ≠ []
  short : g.length ≤ 4
  digits : ∀ u ∈ g, u.isHexDigit = true

/-- A row of groups and their number. The last one may be an IPv4 address, which counts twice. -/
inductive Row : List Text → Nat → Prop where
  | nil : Row [] 0
  | address (t : Text) (ht : Ipv4.Dotted t) : Row [t] 2
  | group (g : Text) (gs : List Text) (n : Nat) (hg : IsGroup g) (hgs : Row gs n) :
      Row (g :: gs) (n + 1)

/-- The groups with a colon between each two. -/
def joined (gs : List Text) : Text := singleColon.intercalate gs

inductive Form : Text → Prop where
  | full (gs : List Text) (h : Row gs 8) : Form (joined gs)
  /-- The double colon stands for as many groups of zeros as are missing, and for one at least. -/
  | compressed (front back : List Text) (n : Nat) (hfront : ∀ g ∈ front, IsGroup g)
      (hback : Row back n) (hmissing : front.length + n ≤ 7) :
      Form (joined front ++ doubleColon ++ joined back)

/-! ## Groups -/

theorem IsGroup.not_mem (g : Text) (h : IsGroup g) (u : CodeUnit) (hu : u.isHexDigit = false) :
    u ∉ g := by
  intro hmem
  rw [h.digits u hmem] at hu
  cases hu

theorem row_cons_iff (g : Text) (gs : List Text) (n : Nat) :
    Row (g :: gs) n ↔
      (gs = [] ∧ Ipv4.Dotted g ∧ n = 2) ∨ (IsGroup g ∧ ∃ m, Row gs m ∧ m + 1 = n) := by
  constructor
  · intro h
    cases h with
    | address _ ht => exact Or.inl ⟨rfl, ht, rfl⟩
    | group _ _ m hg hgs => exact Or.inr ⟨hg, m, hgs, rfl⟩
  · rintro (⟨rfl, ht, rfl⟩ | ⟨hg, m, hgs, rfl⟩)
    · exact .address g ht
    · exact .group g gs m hg hgs

theorem row_length_le (gs : List Text) (n : Nat) (h : Row gs n) : gs.length ≤ n := by
  induction h with
  | nil => exact Nat.le_refl 0
  | address t ht => simp
  | group g gs n hg hgs ih => simpa using ih

theorem row_forall (gs : List Text) (n : Nat) (h : Row gs n) :
    ∀ g ∈ gs, g ≠ [] ∧ CodeUnit.colon ∉ g := by
  induction h with
  | nil => simp
  | address t ht =>
    rw [List.forall_mem_singleton]
    refine ⟨List.ne_nil_of_mem (Ipv4.dot_mem_dotted t ht), fun hmem => ?_⟩
    rcases Ipv4.mem_dotted t ht _ hmem with hdot | hdigit
    · exact absurd hdot (by decide)
    · exact absurd hdigit (by decide)
  | group g gs n hg hgs ih =>
    rw [List.forall_mem_cons]
    exact ⟨⟨hg.nonempty, hg.not_mem g _ (by decide)⟩, ih⟩

/-! ## The count of groups -/

theorem weight?_group (afterEmpty : Bool) (g : Text) (gs : List Text) (n : Nat) (hne : g ≠ [])
    (hdot : ¬ (gs = [] ∧ CodeUnit.dot ∈ g)) :
    weight? afterEmpty (g :: gs) = some n ↔
      IsGroup g ∧ ∃ m, weight? false gs = some m ∧ m + 1 = n := by
  rw [weight?, if_neg (by simpa using hne), if_neg (by simpa using hdot)]
  split
  · next hgroup =>
    rw [Bool.and_eq_true, decide_eq_true_eq, List.all_eq_true] at hgroup
    rw [Option.map_eq_some_iff, and_iff_right (IsGroup.mk hne hgroup.1 hgroup.2)]
  · next hgroup =>
    rw [Bool.and_eq_true, decide_eq_true_eq, List.all_eq_true] at hgroup
    exact iff_of_false nofun fun h => hgroup ⟨h.1.short, h.1.digits⟩

theorem weight?_address (afterEmpty : Bool) (g : Text) (n : Nat) (hdot : CodeUnit.dot ∈ g) :
    weight? afterEmpty [g] = some n ↔ Ipv4.Dotted g ∧ n = 2 := by
  have hne : g ≠ [] := List.ne_nil_of_mem hdot
  rw [weight?, if_neg (by simpa using hne), if_pos (by simpa using hdot),
    ← Ipv4.isAddress_iff_dotted]
  cases Ipv4.isAddress g <;> simp [eq_comm]

theorem weight?_row (afterEmpty : Bool) (gs : List Text) (n : Nat) (h : [] ∉ gs) :
    weight? afterEmpty gs = some n ↔ Row gs n := by
  induction gs generalizing afterEmpty n with
  | nil =>
    rw [weight?, Option.some.injEq]
    constructor
    · rintro rfl
      exact .nil
    · intro hrow
      cases hrow
      rfl
  | cons g gs ih =>
    rw [List.mem_cons, not_or] at h
    rw [row_cons_iff]
    by_cases hdot : gs = [] ∧ CodeUnit.dot ∈ g
    · obtain ⟨rfl, hdot⟩ := hdot
      have hgroup : ¬ IsGroup g := fun hg => hg.not_mem g _ (by decide) hdot
      rw [weight?_address afterEmpty g n hdot]
      simp [hgroup]
    · have haddress : ¬ (gs = [] ∧ Ipv4.Dotted g ∧ n = 2) := fun haddress =>
        hdot ⟨haddress.1, Ipv4.dot_mem_dotted g haddress.2.1⟩
      rw [weight?_group afterEmpty g gs n (Ne.symm h.1) hdot, or_iff_right haddress]
      simp only [ih false _ h.2]

theorem weight?_compressed (front back : List Text) (n : Nat) (hfront : [] ∉ front)
    (hback : [] ∉ back) :
    weight? false (front ++ [] :: back) = some n ↔
      (∀ g ∈ front, IsGroup g) ∧ ∃ m, Row back m ∧ front.length + m + 1 = n := by
  induction front generalizing n with
  | nil =>
    have hcount : weight? false ([] ++ [] :: back) = (weight? true back).map (· + 1) := rfl
    rw [hcount, Option.map_eq_some_iff]
    simp [weight?_row true back _ hback]
  | cons g front ih =>
    rw [List.mem_cons, not_or] at hfront
    rw [List.cons_append, weight?_group false g _ n (Ne.symm hfront.1) (by simp),
      List.forall_mem_cons]
    simp only [ih _ hfront.2, List.length_cons]
    constructor
    · rintro ⟨hg, _, ⟨hall, m, hrow, rfl⟩, rfl⟩
      exact ⟨⟨hg, hall⟩, m, hrow, by omega⟩
    · rintro ⟨⟨hg, hall⟩, m, hrow, rfl⟩
      exact ⟨hg, _, ⟨hall, m, hrow, rfl⟩, by omega⟩

/-! ## Tight texts -/

/-- Every colon stands between two other units. -/
structure Tight (t : Text) : Prop where
  head : t.head? ≠ some CodeUnit.colon
  last : t.getLast? ≠ some CodeUnit.colon
  single : ¬ doubleColon <:+: t

/-- The groups of a tight text. The empty text has none. -/
def row (t : Text) : List Text := if t = [] then [] else t.splitOnP (· == CodeUnit.colon)

theorem row_of_ne_nil (t : Text) (h : t ≠ []) : row t = t.splitOnP (· == CodeUnit.colon) := if_neg h

theorem joined_row (t : Text) : joined (row t) = t := by
  unfold row
  split
  · next h => rw [h, joined, List.intercalate_nil]
  · exact List.intercalate_splitOn CodeUnit.colon

theorem joined_append (gs hs : List Text) (hgs : gs ≠ []) (hhs : hs ≠ []) :
    joined (gs ++ hs) = joined gs ++ CodeUnit.colon :: joined hs := by
  unfold joined
  induction gs with
  | nil => exact absurd rfl hgs
  | cons g gs ih =>
    by_cases hnil : gs = []
    · rw [hnil, List.singleton_append, List.intercalate_cons_of_ne_nil hhs,
        List.intercalate_singleton, List.append_assoc]
      rfl
    · rw [List.cons_append, List.intercalate_cons_of_ne_nil (by simp [hnil]), ih hnil,
        List.intercalate_cons_of_ne_nil hnil]
      simp

theorem splitOnP_colon (s t : Text) :
    (s ++ CodeUnit.colon :: t).splitOnP (· == CodeUnit.colon) =
      s.splitOnP (· == CodeUnit.colon) ++ t.splitOnP (· == CodeUnit.colon) :=
  List.splitOnP_append_cons s t (by decide)

theorem splitOnP_doubleColon (s t : Text) :
    (s ++ doubleColon ++ t).splitOnP (· == CodeUnit.colon) =
      s.splitOnP (· == CodeUnit.colon) ++ [] :: t.splitOnP (· == CodeUnit.colon) := by
  have hdouble : s ++ doubleColon ++ t = s ++ CodeUnit.colon :: ([] ++ CodeUnit.colon :: t) := by
    simp [doubleColon]
  rw [hdouble, splitOnP_colon, splitOnP_colon, List.splitOnP_nil, List.singleton_append]

theorem row_joined (gs : List Text) (h : ∀ g ∈ gs, g ≠ [] ∧ CodeUnit.colon ∉ g) :
    row (joined gs) = gs := by
  cases gs with
  | nil => rfl
  | cons g gs =>
    have hsplit : (joined (g :: gs)).splitOnP (· == CodeUnit.colon) = g :: gs :=
      List.splitOn_intercalate CodeUnit.colon (fun g hg => (h g hg).2) (by simp)
    rw [row_of_ne_nil, hsplit]
    intro hempty
    rw [hempty, List.splitOnP_nil] at hsplit
    exact (h g List.mem_cons_self).1 (List.cons.inj hsplit).1.symm

theorem tight_iff_row (t : Text) : Tight t ↔ [] ∉ row t := by
  constructor
  · -- Where an empty group stands tells which colon stands out.
    intro h hmem
    obtain ⟨front, back, hrow⟩ := List.append_of_mem hmem
    have ht : t = joined (front ++ [] :: back) := by rw [← hrow, joined_row]
    have hback : back ≠ [] → joined ([] :: back) = CodeUnit.colon :: joined back := fun hne =>
      joined_append [[]] back (by simp) hne
    by_cases hf : front = [] <;> by_cases hb : back = []
    · rw [hf, hb] at ht
      rw [show t = [] from ht] at hmem
      cases hmem
    · rw [hf, List.nil_append, hback hb] at ht
      exact h.head (by rw [ht, List.head?_cons])
    · rw [hb, joined_append front [[]] hf (by simp)] at ht
      exact h.last (by rw [ht]; exact List.getLast?_concat)
    · rw [joined_append front _ hf (by simp), hback hb] at ht
      exact h.single ⟨joined front, joined back, by simp [ht, doubleColon]⟩
  · intro h
    by_cases hne : t = []
    · rw [hne]
      exact ⟨by simp, by simp, by decide⟩
    rw [row_of_ne_nil t hne] at h
    refine ⟨fun hhead => h ?_, fun hlast => h ?_, fun hdouble => h ?_⟩
    · obtain ⟨rest, rfl⟩ := List.head?_eq_some_iff.mp hhead
      have hsplit := splitOnP_colon [] rest
      simp only [List.nil_append, List.splitOnP_nil] at hsplit
      simp [hsplit]
    · obtain ⟨init, rfl⟩ := List.getLast?_eq_some_iff.mp hlast
      simp [splitOnP_colon init []]
    · obtain ⟨front, back, rfl⟩ := hdouble
      rw [splitOnP_doubleColon]
      exact List.mem_append_right _ List.mem_cons_self

/-! ## The groups of a text -/

theorem dropTrailingEmpty_eq (gs : List Text) (h : gs.getLast? ≠ some []) :
    dropTrailingEmpty gs = gs := by
  have hself : gs.rdropWhile List.isEmpty = gs := by
    rw [List.rdropWhile_eq_self_iff]
    intro hne hempty
    rw [List.isEmpty_iff] at hempty
    exact h (by rw [List.getLast?_eq_some_getLast hne, hempty])
  exact hself

theorem dropTrailingEmpty_concat (gs : List Text) :
    dropTrailingEmpty (gs ++ [[]]) = dropTrailingEmpty gs :=
  List.rdropWhile_concat_pos List.isEmpty gs [] rfl

theorem getLast?_splitOnP_colon (t : Text) (hne : t ≠ []) (h : Tight t) :
    (t.splitOnP (· == CodeUnit.colon)).getLast? ≠ some [] := by
  intro hlast
  rw [tight_iff_row, row_of_ne_nil t hne] at h
  exact h (List.mem_of_getLast? hlast)

theorem dropTrailingEmpty_front (t : Text) (h : Tight t) :
    dropTrailingEmpty (t.splitOnP (· == CodeUnit.colon)) = row t := by
  by_cases hne : t = []
  · rw [hne]
    rfl
  · rw [dropTrailingEmpty_eq _ (getLast?_splitOnP_colon t hne h), row_of_ne_nil t hne]

theorem colonGroups_of_mem (t : Text) (h : CodeUnit.colon ∈ t) :
    colonGroups t = dropTrailingEmpty (t.splitOnP (· == CodeUnit.colon)) :=
  if_pos (List.contains_iff_mem.mpr h)

theorem indexOfText?_isSome_iff (t : Text) :
    (t.indexOfText? doubleColon 0).isSome = true ↔ doubleColon <:+: t := by
  rw [← Search.block?_isSome_iff]
  simp [Text.indexOfText?, Search.nextBlock?]

theorem indexOfText?_isNone_iff (t : Text) :
    (t.indexOfText? doubleColon 0).isNone = true ↔ ¬ doubleColon <:+: t := by
  rw [← indexOfText?_isSome_iff]
  cases t.indexOfText? doubleColon 0 <;> simp

theorem groups_full (t : Text) (h : Tight t) : groups t = t.splitOnP (· == CodeUnit.colon) := by
  unfold groups
  rw [if_pos ((indexOfText?_isNone_iff t).mpr h.single)]
  by_cases hcolon : CodeUnit.colon ∈ t
  · rw [colonGroups_of_mem t hcolon]
    exact dropTrailingEmpty_eq _ (getLast?_splitOnP_colon t (List.ne_nil_of_mem hcolon) h)
  · have hsplit : t.splitOnP (· == CodeUnit.colon) = [t] := List.splitOn_eq_singleton hcolon
    rw [hsplit]
    exact if_neg (by simpa using hcolon)

section

variable (front back : Text)

theorem isSuffixOf_doubleColon (hback : Tight back) :
    doubleColon.isSuffixOf (front ++ doubleColon ++ back) = true ↔ back = [] := by
  rw [List.isSuffixOf_iff_suffix]
  constructor
  · rintro ⟨init, hinit⟩
    by_contra hne
    have hlast : (front ++ doubleColon ++ back).getLast? = some CodeUnit.colon := by
      rw [← hinit, doubleColon, List.getLast?_append]
      rfl
    rw [List.getLast?_append_of_ne_nil _ hne] at hlast
    exact hback.last hlast
  · rintro rfl
    rw [List.append_nil]
    exact List.suffix_append front doubleColon

theorem isPrefixOf_doubleColon (hfront : Tight front) :
    doubleColon.isPrefixOf (front ++ doubleColon ++ back) = true ↔ front = [] := by
  rw [List.isPrefixOf_iff_prefix]
  constructor
  · rintro ⟨rest, hrest⟩
    by_contra hne
    have hhead : (front ++ doubleColon ++ back).head? = some CodeUnit.colon := by
      rw [← hrest]
      rfl
    rw [List.append_assoc, List.head?_append_of_ne_nil _ hne] at hhead
    exact hfront.head hhead
  · rintro rfl
    exact List.prefix_append doubleColon back

theorem colonGroups_compressed (hfront : Tight front) (hback : Tight back) :
    colonGroups (front ++ doubleColon ++ back) =
      if back = [] then row front
      else front.splitOnP (· == CodeUnit.colon) ++ [] :: row back := by
  have hcolon : CodeUnit.colon ∈ front ++ doubleColon ++ back := by simp [doubleColon]
  rw [colonGroups_of_mem _ hcolon, splitOnP_doubleColon]
  split
  · next hb =>
    have hpieces : front.splitOnP (· == CodeUnit.colon) ++ [[], []] =
        front.splitOnP (· == CodeUnit.colon) ++ [[]] ++ [[]] := by simp
    rw [hb, List.splitOnP_nil, hpieces, dropTrailingEmpty_concat, dropTrailingEmpty_concat,
      dropTrailingEmpty_front front hfront]
  · next hb =>
    rw [row_of_ne_nil back hb]
    refine dropTrailingEmpty_eq _ ?_
    rw [List.getLast?_append_of_ne_nil _ (by simp), List.getLast?_cons_of_ne_nil
      (List.splitOnP_ne_nil _ back)]
    exact getLast?_splitOnP_colon back hb hback

theorem groups_compressed (hfront : Tight front) (hback : Tight back) :
    groups (front ++ doubleColon ++ back) = row front ++ [] :: row back := by
  have hdouble : ¬ ((front ++ doubleColon ++ back).indexOfText? doubleColon 0).isNone = true := by
    rw [indexOfText?_isNone_iff, not_not]
    exact ⟨front, back, rfl⟩
  unfold groups
  rw [if_neg hdouble, colonGroups_compressed front back hfront hback]
  simp only [isSuffixOf_doubleColon front back hback, isPrefixOf_doubleColon front back hfront]
  by_cases hb : back = []
  · rw [if_pos hb, if_pos hb, hb]
    rfl
  · rw [if_neg hb, if_neg hb]
    split
    · next hf =>
      rw [hf]
      rfl
    · next hf => rw [row_of_ne_nil front hf]

end

/-! ## Colons that stand out -/

theorem isPrefixOf_singleColon (t : Text) :
    singleColon.isPrefixOf t = true ↔ t.head? = some CodeUnit.colon := by
  cases t with
  | nil => simp [singleColon]
  | cons u t =>
    rw [singleColon, List.isPrefixOf_cons_cons, List.isPrefixOf_nil_left, Bool.and_true, beq_iff_eq,
      List.head?_cons, Option.some.injEq, eq_comm]

theorem isSuffixOf_singleColon (t : Text) :
    singleColon.isSuffixOf t = true ↔ t.getLast? = some CodeUnit.colon := by
  rw [List.isSuffixOf, ← List.head?_reverse]
  exact isPrefixOf_singleColon t.reverse

theorem hasLooseColon_eq_false_iff (t : Text) :
    hasLooseColon t = false ↔ (t.head? = some CodeUnit.colon → doubleColon <+: t) ∧
      (t.getLast? = some CodeUnit.colon → doubleColon <:+ t) := by
  rw [← isPrefixOf_singleColon, ← isSuffixOf_singleColon, ← List.isPrefixOf_iff_prefix,
    ← List.isSuffixOf_iff_suffix]
  unfold hasLooseColon
  cases singleColon.isPrefixOf t <;> cases singleColon.isSuffixOf t <;> simp

theorem infix_concat_colon_iff (t : Text) :
    doubleColon <:+: t ++ [CodeUnit.colon] ↔
      doubleColon <:+: t ∨ t.getLast? = some CodeUnit.colon := by
  rw [List.infix_concat_iff, or_comm, ← isSuffixOf_singleColon, List.isSuffixOf_iff_suffix]
  exact or_congr_right
    (show singleColon ++ [CodeUnit.colon] <:+ t ++ [CodeUnit.colon] ↔ singleColon <:+ t from
      List.suffix_append_self_iff)

theorem infix_cons_colon_iff (t : Text) :
    doubleColon <:+: CodeUnit.colon :: t ↔
      doubleColon <:+: t ∨ t.head? = some CodeUnit.colon := by
  rw [List.infix_cons_iff, or_comm]
  refine or_congr_right ?_
  cases t <;> simp [doubleColon, eq_comm]

theorem tight_iff_front (t : Text) :
    Tight t ↔ ¬ doubleColon <:+: t ++ [CodeUnit.colon] ∧ t.head? ≠ some CodeUnit.colon := by
  rw [infix_concat_colon_iff, not_or]
  exact ⟨fun h => ⟨⟨h.single, h.last⟩, h.head⟩, fun h => ⟨h.2, h.1.2, h.1.1⟩⟩

theorem tight_iff_back (t : Text) :
    Tight t ↔ ¬ doubleColon <:+: CodeUnit.colon :: t ∧ t.getLast? ≠ some CodeUnit.colon := by
  rw [infix_cons_colon_iff, not_or]
  exact ⟨fun h => ⟨⟨h.single, h.head⟩, h.last⟩, fun h => ⟨h.1.2, h.2, h.1.1⟩⟩

theorem exists_first (t : Text) (h : doubleColon <:+: t) :
    ∃ front back, t = front ++ doubleColon ++ back ∧
      ¬ doubleColon <:+: front ++ [CodeUnit.colon] := by
  obtain ⟨i, hi⟩ := Option.isSome_iff_exists.mp ((Search.block?_isSome_iff doubleColon t).mpr h)
  obtain ⟨front, back, rfl, -, hfirst⟩ := Search.block?_split doubleColon t i hi
  refine ⟨front, back, rfl, ?_⟩
  rintro ⟨front', back', hsplit⟩
  have hwhole : front ++ doubleColon ++ back =
      front' ++ doubleColon ++ (back' ++ CodeUnit.colon :: back) := by
    rw [← List.append_assoc, hsplit]
    simp [doubleColon]
  have hle := hfirst front' _ hwhole
  have hlength := congrArg List.length hsplit
  simp only [List.length_append, doubleColon, List.length_cons, List.length_nil] at hlength
  omega

section

variable (front back : Text)

theorem prefix_colon : front ++ [CodeUnit.colon] <+: front ++ doubleColon ++ back :=
  ⟨CodeUnit.colon :: back, by simp [doubleColon]⟩

theorem indexOfText?_first (h : ¬ doubleColon <:+: front ++ [CodeUnit.colon]) :
    (front ++ doubleColon ++ back).indexOfText? doubleColon 0 = some front.length := by
  have hfound : Search.block? doubleColon (front ++ doubleColon ++ back) = some front.length := by
    refine Search.block?_of_first doubleColon front back fun front' back' hsplit => ?_
    by_contra hlt
    -- A double colon further in front would end at the latest with the first of the two colons.
    have hshort : front' ++ doubleColon <+: front ++ [CodeUnit.colon] := by
      refine List.prefix_of_prefix_length_le ⟨back', hsplit.symm⟩ (prefix_colon front back) ?_
      simp only [List.length_append, doubleColon, List.length_cons, List.length_nil]
      omega
    exact h ((List.suffix_append front' doubleColon).isInfix.trans hshort.isInfix)
  unfold Text.indexOfText? Search.nextBlock?
  simp only [Int.toNat_zero, Nat.zero_le, if_true, List.drop_zero, hfound]
  rfl

theorem hasSecondDoubleColon_eq_false_iff (h : ¬ doubleColon <:+: front ++ [CodeUnit.colon]) :
    hasSecondDoubleColon (front ++ doubleColon ++ back) = false ↔
      ¬ doubleColon <:+: CodeUnit.colon :: back := by
  have hsplit : front ++ doubleColon ++ back =
      (front ++ [CodeUnit.colon]) ++ CodeUnit.colon :: back := by simp [doubleColon]
  have hrest : (front ++ doubleColon ++ back).drop (front.length + 1) = CodeUnit.colon :: back := by
    rw [hsplit]
    exact List.drop_left' (by simp)
  have hinside : front.length + 1 ≤ (front ++ doubleColon ++ back).length := by
    rw [hsplit]
    simp
  have hstart : ((front.length : Int) + 1).toNat = front.length + 1 := by omega
  unfold hasSecondDoubleColon
  rw [indexOfText?_first front back h, ← Search.block?_isSome_iff]
  unfold Text.indexOfText? Search.nextBlock?
  simp only [hstart, if_pos hinside, hrest, Option.isSome_map, Bool.not_eq_true]

theorem head?_of_first (h : ¬ doubleColon <:+: front ++ [CodeUnit.colon]) :
    ((front ++ doubleColon ++ back).head? = some CodeUnit.colon →
      doubleColon <+: front ++ doubleColon ++ back) ↔ front.head? ≠ some CodeUnit.colon := by
  by_cases hne : front = []
  · rw [hne]
    exact iff_of_true (fun _ => List.prefix_append doubleColon back) (by simp)
  have hlength : doubleColon.length ≤ (front ++ [CodeUnit.colon]).length := by
    have hpos := List.length_pos_iff.mpr hne
    rw [List.length_append]
    exact Nat.succ_le_succ hpos
  have hstart : ¬ doubleColon <+: front ++ doubleColon ++ back := fun hstart =>
    h (List.prefix_of_prefix_length_le hstart (prefix_colon front back) hlength).isInfix
  rw [List.append_assoc] at hstart ⊢
  rw [List.head?_append_of_ne_nil _ hne]
  exact imp_congr_right fun _ => iff_of_false hstart not_false

theorem getLast?_of_single (h : ¬ doubleColon <:+: CodeUnit.colon :: back) :
    ((front ++ doubleColon ++ back).getLast? = some CodeUnit.colon →
      doubleColon <:+ front ++ doubleColon ++ back) ↔ back.getLast? ≠ some CodeUnit.colon := by
  by_cases hne : back = []
  · rw [hne, List.append_nil]
    exact iff_of_true (fun _ => List.suffix_append front doubleColon) (by simp)
  have hlong : CodeUnit.colon :: back <:+ front ++ doubleColon ++ back :=
    ⟨front ++ [CodeUnit.colon], by simp [doubleColon]⟩
  have hlength : doubleColon.length ≤ (CodeUnit.colon :: back).length :=
    Nat.succ_le_succ (List.length_pos_iff.mpr hne)
  have hends : ¬ doubleColon <:+ front ++ doubleColon ++ back := fun hends =>
    h (List.suffix_of_suffix_length_le hends hlong hlength).isInfix
  rw [List.getLast?_append_of_ne_nil _ hne]
  exact imp_congr_right fun _ => iff_of_false hends not_false

theorem tight_sides_iff (h : ¬ doubleColon <:+: front ++ [CodeUnit.colon]) :
    (hasSecondDoubleColon (front ++ doubleColon ++ back) = false ∧
      hasLooseColon (front ++ doubleColon ++ back) = false) ↔ Tight front ∧ Tight back := by
  rw [hasSecondDoubleColon_eq_false_iff front back h, hasLooseColon_eq_false_iff, tight_iff_front,
    tight_iff_back, and_iff_right h, head?_of_first front back h]
  constructor
  · rintro ⟨hsingle, hhead, hlast⟩
    exact ⟨hhead, hsingle, (getLast?_of_single front back hsingle).mp hlast⟩
  · rintro ⟨hhead, hsingle, hlast⟩
    exact ⟨hsingle, hhead, (getLast?_of_single front back hsingle).mpr hlast⟩

end

/-! ## Addresses -/

theorem isAddress_iff (t : Text) :
    isAddress t = true ↔ (hasSecondDoubleColon t = false ∧ hasLooseColon t = false) ∧
      ∃ n, weight? false (groups t) = some n ∧ (groups t).length ≤ 8 ∧ n ≤ 8 ∧
        (8 ≤ n ∨ doubleColon <:+: t) := by
  rw [← indexOfText?_isSome_iff]
  unfold isAddress maxGroups
  cases hasSecondDoubleColon t <;> cases hasLooseColon t <;>
    cases weight? false (groups t) <;> simp

theorem isAddress_full_iff (t : Text) (h : ¬ doubleColon <:+: t) :
    isAddress t = true ↔ Tight t ∧ Row (row t) 8 := by
  have hsecond : hasSecondDoubleColon t = false := by
    unfold hasSecondDoubleColon
    rw [Option.isNone_iff_eq_none.mp ((indexOfText?_isNone_iff t).mpr h)]
  have hloose : hasLooseColon t = false ↔ Tight t := by
    rw [hasLooseColon_eq_false_iff]
    constructor
    · rintro ⟨hhead, hlast⟩
      exact ⟨fun hcolon => h (hhead hcolon).isInfix, fun hcolon => h (hlast hcolon).isInfix, h⟩
    · intro htight
      exact ⟨fun hcolon => absurd hcolon htight.head, fun hcolon => absurd hcolon htight.last⟩
  rw [isAddress_iff, hloose, and_iff_right hsecond]
  refine and_congr_right fun htight => ?_
  by_cases hne : t = []
  · -- The empty text is counted as one empty group, but it is a row of none.
    rw [hne]
    refine iff_of_false ?_ nofun
    rintro ⟨n, hn, -, -, hcount⟩
    obtain rfl : 1 = n := Option.some.inj hn
    exact absurd hcount (by decide)
  have hrow := (tight_iff_row t).mp htight
  rw [groups_full t htight, ← row_of_ne_nil t hne]
  simp only [weight?_row false _ _ hrow]
  constructor
  · rintro ⟨n, hn, -, hle, hge⟩
    obtain rfl : n = 8 := Nat.le_antisymm hle (hge.resolve_right h)
    exact hn
  · intro height
    exact ⟨8, height, row_length_le _ _ height, Nat.le_refl 8, Or.inl (Nat.le_refl 8)⟩

theorem isAddress_compressed_iff (front back : Text)
    (h : ¬ doubleColon <:+: front ++ [CodeUnit.colon]) :
    isAddress (front ++ doubleColon ++ back) = true ↔
      (Tight front ∧ Tight back) ∧ (∀ g ∈ row front, IsGroup g) ∧
        ∃ n, Row (row back) n ∧ (row front).length + n ≤ 7 := by
  rw [isAddress_iff, tight_sides_iff front back h]
  refine and_congr_right fun ⟨hfront, hback⟩ => ?_
  have hinfix : doubleColon <:+: front ++ doubleColon ++ back := ⟨front, back, rfl⟩
  rw [groups_compressed front back hfront hback, List.length_append, List.length_cons]
  simp only [weight?_compressed _ _ _ ((tight_iff_row front).mp hfront)
    ((tight_iff_row back).mp hback), hinfix, or_true, and_true]
  constructor
  · rintro ⟨_, ⟨hgroups, m, hrow, rfl⟩, -, hle⟩
    exact ⟨hgroups, m, hrow, by omega⟩
  · rintro ⟨hgroups, m, hrow, hle⟩
    have hlength := row_length_le _ _ hrow
    exact ⟨_, ⟨hgroups, m, hrow, rfl⟩, by omega, by omega⟩

theorem tight_joined (gs : List Text) (h : ∀ g ∈ gs, g ≠ [] ∧ CodeUnit.colon ∉ g) :
    Tight (joined gs) := by
  rw [tight_iff_row, row_joined gs h]
  exact fun hmem => (h [] hmem).1 rfl

/-- The check accepts the addresses of the grammar and nothing else. -/
theorem isAddress_iff_form (t : Text) : isAddress t = true ↔ Form t := by
  constructor
  · intro h
    by_cases hdouble : doubleColon <:+: t
    · obtain ⟨front, back, rfl, hfront⟩ := exists_first t hdouble
      obtain ⟨-, hgroups, n, hrow, hmissing⟩ := (isAddress_compressed_iff front back hfront).mp h
      have hform := Form.compressed (row front) (row back) n hgroups hrow hmissing
      rwa [joined_row, joined_row] at hform
    · obtain ⟨-, hrow⟩ := (isAddress_full_iff t hdouble).mp h
      have hform := Form.full (row t) hrow
      rwa [joined_row] at hform
  · intro h
    cases h with
    | full gs hrow =>
      have hgs := row_forall gs 8 hrow
      have htight := tight_joined gs hgs
      rw [isAddress_full_iff _ htight.single, row_joined gs hgs]
      exact ⟨htight, hrow⟩
    | compressed front back n hfront hback hmissing =>
      have hfronts : ∀ g ∈ front, g ≠ [] ∧ CodeUnit.colon ∉ g := fun g hg =>
        ⟨(hfront g hg).nonempty, (hfront g hg).not_mem g _ (by decide)⟩
      have hbacks := row_forall back n hback
      have htight := tight_joined front hfronts
      rw [isAddress_compressed_iff _ _ ((tight_iff_front _).mp htight).1, row_joined front hfronts,
        row_joined back hbacks]
      exact ⟨⟨htight, tight_joined back hbacks⟩, hfront, n, hback, hmissing⟩

end LexicalPath.Ipv6
