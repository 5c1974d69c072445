import LexicalPath.Prefix
import LexicalPath.Proofs.Separators
import Mathlib.Tactic.SplitIfs

/-!
# The grammar of prefixes

`Form` lists the forms of a valid path, one rule for each way to start. The length and the kind of
a prefix come from separate tests, and together they give exactly these forms.
-/

namespace LexicalPath.Prefix

open Text

/-- The path has a valid start, and this is its prefix. -/
inductive Form : Text → Prefix → Prop where
  | empty : Form [] ⟨.relative, 0⟩
  | relative (u : CodeUnit) (rest : Text) (htilde : u ≠ CodeUnit.tilde) (hcolon : u ≠ CodeUnit.colon)
      (hu : Separator.isUnit u = false) (hsecond : rest.head? ≠ some CodeUnit.colon) :
      Form (u :: rest) ⟨.relative, 0⟩
  /-- A colon may follow the root if it is a slash. -/
  | rootAbsolute (u : CodeUnit) (rest : Text) (hu : Separator.isUnit u = true)
      (hrest : rest.head?.any Separator.isUnit = false)
      (hcolon : ¬ (u = CodeUnit.backslash ∧ rest.head? = some CodeUnit.colon)) :
      Form (u :: rest) ⟨.rootAbsolute, 1⟩
  | driveRelative (l : CodeUnit) (rest : Text) (hl : l.isLetter = true)
      (hrest : rest.head?.any Separator.isUnit = false) :
      Form (l :: CodeUnit.colon :: rest) ⟨.driveRelative, 2⟩
  | driveAbsolute (l u : CodeUnit) (rest : Text) (hl : l.isLetter = true)
      (hu : Separator.isUnit u = true) :
      Form (l :: CodeUnit.colon :: u :: rest) ⟨.driveAbsolute, 3⟩
  | unc (u v : CodeUnit) (host : Text) (w : CodeUnit) (rest : Text)
      (hu : Separator.isUnit u = true) (hv : Separator.isUnit v = true) (hne : host ≠ [])
      (hfree : SeparatorFree host) (hhost : Host.isValid host = true)
      (hw : Separator.isUnit w = true) :
      Form (u :: v :: (host ++ w :: rest)) ⟨.unc, host.length + 3⟩
  | bareHome : Form [CodeUnit.tilde] ⟨.homeCurrentUser, 2⟩
  | home (u : CodeUnit) (rest : Text) (hu : Separator.isUnit u = true) :
      Form (CodeUnit.tilde :: u :: rest) ⟨.homeCurrentUser, 2⟩
  /-- The separator behind the name counts although it is not there. -/
  | bareNamedHome (name : Text) (hne : name ≠ []) (hfree : SeparatorFree name) :
      Form (CodeUnit.tilde :: name) ⟨.homeNamedUser, name.length + 2⟩
  | namedHome (name : Text) (w : CodeUnit) (rest : Text) (hne : name ≠ [])
      (hfree : SeparatorFree name) (hw : Separator.isUnit w = true) :
      Form (CodeUnit.tilde :: (name ++ w :: rest)) ⟨.homeNamedUser, name.length + 2⟩

/-! ## Homes and hosts -/

theorem homeLength_bare (name : Text) (hfree : SeparatorFree name) :
    homeLength (CodeUnit.tilde :: name) = name.length + 2 := by
  have h := separatorIdx?_eq_none [CodeUnit.tilde] name hfree
  simp only [List.length_singleton, List.singleton_append] at h
  simp [homeLength, h]

theorem homeLength_split (name : Text) (w : CodeUnit) (rest : Text) (hfree : SeparatorFree name)
    (hw : Separator.isUnit w = true) :
    homeLength (CodeUnit.tilde :: (name ++ w :: rest)) = name.length + 2 := by
  have h := separatorIdx?_split [CodeUnit.tilde] name w rest hfree hw
  simp only [List.length_singleton, List.singleton_append] at h
  simp only [homeLength, h]
  omega

theorem uncLength?_eq_none (u v : CodeUnit) (rest : Text) (hfree : SeparatorFree rest) :
    uncLength? (u :: v :: rest) = none := by
  have h : separatorIdx? (u :: v :: rest) 2 = none := separatorIdx?_eq_none [u, v] rest hfree
  simp only [uncLength?, h]

theorem uncLength?_split (u v : CodeUnit) (host : Text) (w : CodeUnit) (rest : Text)
    (hfree : SeparatorFree host) (hw : Separator.isUnit w = true) :
    uncLength? (u :: v :: (host ++ w :: rest)) =
      if host = [] ∨ Host.isValid host = false then none else some (host.length + 3) := by
  have h : separatorIdx? (u :: v :: (host ++ w :: rest)) 2 = some (2 + host.length) :=
    separatorIdx?_split [u, v] host w rest hfree hw
  have hslice :
      slice (u :: v :: (host ++ w :: rest)) 2 (((2 + host.length : Nat) : Int) - 2) = host := by
    have hcount : ((2 + host.length : Nat) : Int) - 2 = (host.length : Int) := by omega
    rw [hcount]
    simp [slice]
  simp only [uncLength?, h, hslice]
  by_cases hne : host = []
  · simp [hne]
  · have hpos : 0 < host.length := List.length_pos_iff.mpr hne
    cases hv : Host.isValid host with
    | true => simp [hne, show 2 + host.length + 1 = host.length + 3 by omega]
    | false => simp

theorem length?_two_separators (u v : CodeUnit) (rest : Text) (hu : Separator.isUnit u = true)
    (hv : Separator.isUnit v = true) : length? (u :: v :: rest) = uncLength? (u :: v :: rest) := by
  obtain ⟨hcolon, htilde, -, -⟩ := Separator.isUnit_ne u hu
  have hsecond := (Separator.isUnit_ne v hv).1
  simp [length?, hcolon, htilde, hsecond, hu, hv]

/-! ## Every form is found -/

theorem parse?_of_form (path : Text) (p : Prefix) (h : Form path p) : parse? path = some p := by
  unfold parse? length? kindOf
  cases h with
  | empty => rfl
  | relative u rest htilde hcolon hu hsecond =>
    cases rest with
    | nil => simp [htilde, hcolon, hu]
    | cons v rest =>
      have hv : v ≠ CodeUnit.colon := by simpa using hsecond
      simp [htilde, hcolon, hu, hv]
  | rootAbsolute u rest hu hrest hcolon =>
    obtain ⟨h1, h2, -, h4⟩ := Separator.isUnit_ne u hu
    cases rest with
    | nil => simp [h1, h2, hu]
    | cons v rest =>
      have hv : Separator.isUnit v = false := by simpa using hrest
      by_cases hvc : v = CodeUnit.colon
      · have hslash : u = CodeUnit.slash := by
          rcases (Separator.isUnit_iff u).mp hu with h | h
          · exact h
          · exact absurd ⟨h, by simp [hvc]⟩ hcolon
        subst hvc
        subst hslash
        simp [h1, h2, h4]
      · simp [h1, h2, hu, hv, hvc]
  | driveRelative l rest hl hrest =>
    obtain ⟨h1, h2, -⟩ := CodeUnit.isLetter_ne_unit l hl
    simp [h1, h2, hl, hrest]
  | driveAbsolute l u rest hl hu =>
    obtain ⟨h1, h2, -⟩ := CodeUnit.isLetter_ne_unit l hl
    simp [h1, h2, hl, hu]
  | unc u v host w rest hu hv hne hfree hhost hw =>
    obtain ⟨h1, h2, -, -⟩ := Separator.isUnit_ne u hu
    obtain ⟨h3, -, -, -⟩ := Separator.isUnit_ne v hv
    have hlen := uncLength?_split u v host w rest hfree hw
    rw [if_neg (by simp [hne, hhost])] at hlen
    simp [h1, h2, h3, hu, hv, hlen]
  | bareHome => rfl
  | home u rest hu =>
    have hlen := homeLength_split [] u rest separatorFree_nil hu
    simp only [List.nil_append, List.length_nil] at hlen
    simp [hlen, hu, show CodeUnit.tilde ≠ CodeUnit.colon by decide]
  | bareNamedHome name hne hfree =>
    obtain ⟨v, name', rfl⟩ := List.exists_cons_of_ne_nil hne
    have hv := ((separatorFree_cons v name').mp hfree).1
    have hlen := homeLength_bare (v :: name') hfree
    simp [hlen, hv, show CodeUnit.tilde ≠ CodeUnit.colon by decide]
  | namedHome name w rest hne hfree hw =>
    obtain ⟨v, name', rfl⟩ := List.exists_cons_of_ne_nil hne
    have hv := ((separatorFree_cons v name').mp hfree).1
    have hlen := homeLength_split (v :: name') w rest hfree hw
    simp only [List.cons_append, List.length_cons] at hlen
    simp [hlen, hv, show CodeUnit.tilde ≠ CodeUnit.colon by decide]

/-! ## Every valid path has a form -/

theorem form_tilde (v : CodeUnit) (rest : Text) : ∃ p, Form (CodeUnit.tilde :: v :: rest) p := by
  cases hv : Separator.isUnit v with
  | true => exact ⟨_, .home v rest hv⟩
  | false =>
    rcases separatorFree_or_split (v :: rest) with hfree | ⟨name, w, tail, hsplit, hname, hw⟩
    · exact ⟨_, .bareNamedHome (v :: rest) (by simp) hfree⟩
    · rw [hsplit]
      refine ⟨_, .namedHome name w tail ?_ hname hw⟩
      rintro rfl
      simp only [List.nil_append, List.cons.injEq] at hsplit
      rw [hsplit.1, hw] at hv
      cases hv

theorem form_two_separators (u v : CodeUnit) (rest : Text) (n : Nat)
    (hu : Separator.isUnit u = true) (hv : Separator.isUnit v = true)
    (h : uncLength? (u :: v :: rest) = some n) : ∃ p, Form (u :: v :: rest) p := by
  rcases separatorFree_or_split rest with hfree | ⟨host, w, tail, rfl, hfree, hw⟩
  · rw [uncLength?_eq_none u v rest hfree] at h
    cases h
  · rw [uncLength?_split u v host w tail hfree hw] at h
    split at h
    · cases h
    · next hhost =>
      rw [not_or, Bool.not_eq_false] at hhost
      exact ⟨_, .unc u v host w tail hu hv hhost.1 hfree hhost.2 hw⟩

theorem form_letter (l : CodeUnit) (rest : Text) (hl : l.isLetter = true) :
    ∃ p, Form (l :: CodeUnit.colon :: rest) p := by
  cases hrest : rest.head?.any Separator.isUnit with
  | false => exact ⟨_, .driveRelative l rest hl hrest⟩
  | true =>
    cases rest with
    | nil => cases hrest
    | cons u rest => exact ⟨_, .driveAbsolute l u rest hl (by simpa using hrest)⟩

theorem form_of_length? (path : Text) (n : Nat) (h : length? path = some n) :
    ∃ p, Form path p := by
  match path with
  | [] => exact ⟨_, .empty⟩
  | [u] =>
    simp only [length?] at h
    split_ifs at h with hcolon htilde hu
    · subst htilde
      exact ⟨_, .bareHome⟩
    · exact ⟨_, .rootAbsolute u [] hu rfl (by simp)⟩
    · exact ⟨_, .relative u [] htilde hcolon (by simpa using hu) (by simp)⟩
  | u :: v :: rest =>
    simp only [length?] at h
    split_ifs at h with hcolon htilde hv hl hrest hslash hboth hu
    · subst htilde
      exact form_tilde v rest
    · subst hv
      exact form_letter u rest hl
    · subst hv
      exact form_letter u rest hl
    · subst hv
      subst hslash
      refine ⟨_, .rootAbsolute _ _ (by decide) (by simp [Separator.isUnit_colon]) ?_⟩
      rintro ⟨h, -⟩
      exact absurd h (by decide)
    · rw [Bool.and_eq_true] at hboth
      exact form_two_separators u v rest n hboth.1 hboth.2 h
    · refine ⟨_, .rootAbsolute u (v :: rest) hu ?_ (by simp [hv])⟩
      simpa [hu] using hboth
    · exact ⟨_, .relative u (v :: rest) htilde hcolon (by simpa using hu) (by simpa using hv)⟩

theorem parse?_eq_some_iff_form (path : Text) (p : Prefix) :
    parse? path = some p ↔ Form path p := by
  constructor
  · intro h
    obtain ⟨n, hn, -⟩ := Option.map_eq_some_iff.mp h
    obtain ⟨q, hq⟩ := form_of_length? path n hn
    have hpq : some q = some p := (parse?_of_form path q hq).symm.trans h
    obtain rfl := Option.some.inj hpq
    exact hq
  · exact parse?_of_form path p

theorem length?_eq_some_iff_form (path : Text) (n : Nat) :
    length? path = some n ↔ ∃ kind, Form path ⟨kind, n⟩ := by
  constructor
  · intro h
    exact ⟨kindOf path n, (parse?_eq_some_iff_form path _).mp (by simp [parse?, h])⟩
  · rintro ⟨kind, h⟩
    obtain ⟨m, hm, hp⟩ := Option.map_eq_some_iff.mp (parse?_of_form path _ h)
    rw [hm, (Prefix.mk.inj hp).2]

theorem length?_of_form (path : Text) (p : Prefix) (h : Form path p) :
    length? path = some p.length :=
  (length?_eq_some_iff_form path p.length).mpr ⟨p.kind, h⟩

theorem form_of_length_zero (path : Text) (h : length? path = some 0) :
    Form path ⟨.relative, 0⟩ := by
  obtain ⟨kind, hform⟩ := (length?_eq_some_iff_form path 0).mp h
  cases hform with
  | empty => exact .empty
  | relative u rest htilde hcolon hu hsecond => exact .relative u rest htilde hcolon hu hsecond

theorem form_unique (path : Text) (p q : Prefix) (hp : Form path p) (hq : Form path q) : p = q :=
  Option.some.inj ((parse?_of_form path p hp).symm.trans (parse?_of_form path q hq))

theorem form_relative_iff (t : Text) (ht : t.head?.any Separator.isUnit = false) :
    Form t ⟨.relative, 0⟩ ↔ t.head? ≠ some CodeUnit.tilde ∧ t.head? ≠ some CodeUnit.colon ∧
      t[1]? ≠ some CodeUnit.colon := by
  constructor
  · intro h
    cases h with
    | empty => simp
    | relative u rest htilde hcolon _ hsecond =>
      refine ⟨by simpa using htilde, by simpa using hcolon, ?_⟩
      simpa [List.head?_eq_getElem?] using hsecond
  · rintro ⟨htilde, hcolon, hsecond⟩
    cases t with
    | nil => exact .empty
    | cons u rest =>
      exact .relative u rest (by simpa using htilde) (by simpa using hcolon) (by simpa using ht)
        (by simpa [List.head?_eq_getElem?] using hsecond)

theorem form_rootAbsolute_iff (u : CodeUnit) (t : Text) (hu : Separator.isUnit u = true)
    (ht : t.head?.any Separator.isUnit = false) :
    Form (u :: t) ⟨.rootAbsolute, 1⟩ ↔
      ¬ (u = CodeUnit.backslash ∧ t.head? = some CodeUnit.colon) := by
  constructor
  · intro h
    cases h with
    | rootAbsolute _ _ _ _ hcolon => exact hcolon
  · exact .rootAbsolute u t hu ht

/-! ## Lengths -/

theorem form_length (path : Text) (p : Prefix) (h : Form path p) :
    p.length ≤ path.length ∨
      (p.length = path.length + 1 ∧ path.head? = some CodeUnit.tilde ∧ SeparatorFree path) := by
  cases h with
  | bareHome => exact Or.inr ⟨rfl, rfl, by simp [SeparatorFree, Separator.isUnit_tilde]⟩
  | bareNamedHome name hne hfree =>
    exact Or.inr ⟨rfl, rfl, (separatorFree_cons _ name).mpr ⟨Separator.isUnit_tilde, hfree⟩⟩
  | unc | namedHome =>
    left
    simp only [List.length_cons, List.length_append]
    omega
  | empty | relative | rootAbsolute | driveRelative | driveAbsolute | home =>
    left
    simp

theorem form_length_of_tilde (name : Text) (p : Prefix) (hfree : SeparatorFree name)
    (h : Form (CodeUnit.tilde :: name) p) : p.length = name.length + 2 := by
  cases name with
  | nil => rw [form_unique _ p _ h .bareHome, List.length_nil]
  | cons v name => rw [form_unique _ p _ h (.bareNamedHome (v :: name) (by simp) hfree)]

theorem take_host (u v : CodeUnit) (host : Text) (w : CodeUnit) (rest : Text) :
    (u :: v :: (host ++ w :: rest)).take (host.length + 3) = u :: v :: (host ++ [w]) := by
  simp [List.take_append, List.take_of_length_le]

theorem take_home (name : Text) (w : CodeUnit) (rest : Text) :
    (CodeUnit.tilde :: (name ++ w :: rest)).take (name.length + 2) =
      CodeUnit.tilde :: (name ++ [w]) := by
  simp [List.take_append, List.take_of_length_le]

theorem endsWithSeparator_concat (t : Text) (w : CodeUnit) (hw : Separator.isUnit w = true) :
    endsWithSeparator (t ++ [w]) = true := by
  unfold endsWithSeparator
  rw [List.getLast?_concat, Option.any_some, hw]

theorem form_cases (path : Text) (p : Prefix) (h : Form path p) (hle : p.length ≤ path.length) :
    (p.kind = .relative ∧ path.take p.length = [] ∧
        (path.drop p.length).head?.any Separator.isUnit = false) ∨
      (p.kind = .driveRelative ∧
        (∃ l, path.take p.length = [l, CodeUnit.colon] ∧ l.isLetter = true) ∧
        (path.drop p.length).head?.any Separator.isUnit = false) ∨
      (p.kind ≠ .driveRelative ∧ endsWithSeparator (path.take p.length) = true) := by
  cases h with
  | empty => exact Or.inl ⟨rfl, rfl, rfl⟩
  | relative u rest _ _ hu => exact Or.inl ⟨rfl, rfl, by simpa using hu⟩
  | driveRelative l rest hl hrest => exact Or.inr (Or.inl ⟨rfl, ⟨l, rfl, hl⟩, hrest⟩)
  | rootAbsolute u rest hu => exact Or.inr (Or.inr ⟨nofun, endsWithSeparator_concat [] u hu⟩)
  | driveAbsolute l u rest _ hu =>
    exact Or.inr (Or.inr ⟨nofun, endsWithSeparator_concat [l, CodeUnit.colon] u hu⟩)
  | unc u v host w rest _ _ _ _ _ hw =>
    rw [take_host u v host w rest]
    exact Or.inr (Or.inr ⟨nofun, endsWithSeparator_concat (u :: v :: host) w hw⟩)
  | bareHome => exact absurd hle (by decide)
  | home u rest hu =>
    exact Or.inr (Or.inr ⟨nofun, endsWithSeparator_concat [CodeUnit.tilde] u hu⟩)
  | bareNamedHome name =>
    simp only [List.length_cons] at hle
    omega
  | namedHome name w rest _ _ hw =>
    rw [take_home name w rest]
    exact Or.inr (Or.inr ⟨nofun, endsWithSeparator_concat (CodeUnit.tilde :: name) w hw⟩)

theorem form_boundary (path : Text) (p : Prefix) (h : Form path p) (hle : p.length ≤ path.length) :
    endsWithSeparator (path.take p.length) = true ∨
      (path.drop p.length).head?.any Separator.isUnit = false := by
  rcases form_cases path p h hle with ⟨-, -, hrest⟩ | ⟨-, -, hrest⟩ | ⟨-, hends⟩
  · exact Or.inr hrest
  · exact Or.inr hrest
  · exact Or.inl hends

/-! ## Front parts -/

section

variable (front back : Text)

theorem append_held (held rest : Text) (h : front ++ back = held ++ rest)
    (hle : held.length ≤ front.length) : ∃ more, front = held ++ more ∧ rest = more ++ back := by
  obtain ⟨more, rfl⟩ : held <+: front :=
    List.prefix_of_prefix_length_le ⟨rest, h.symm⟩ ⟨back, rfl⟩ hle
  rw [List.append_assoc, List.append_cancel_left_eq] at h
  exact ⟨more, rfl, h.symm⟩

theorem head?_front (u : CodeUnit) (h : (front ++ back).head? ≠ some u) : front.head? ≠ some u := by
  cases front with
  | nil => simp
  | cons v front => exact h

theorem head?_any_front (f : CodeUnit → Bool) (h : (front ++ back).head?.any f = false) :
    front.head?.any f = false := by
  cases front with
  | nil => rfl
  | cons v front => exact h

theorem form_front (p : Prefix) (h : Form (front ++ back) p) (hne : front ≠ [])
    (hle : p.length ≤ front.length) : Form front p := by
  generalize hpath : front ++ back = path at h
  have hpos : 1 ≤ front.length := List.length_pos_iff.mpr hne
  cases h with
  | empty => exact absurd (List.append_eq_nil_iff.mp hpath).1 hne
  | relative u rest htilde hcolon hu hsecond =>
    obtain ⟨more, rfl, rfl⟩ := append_held front back [u] rest hpath hpos
    exact .relative u more htilde hcolon hu (head?_front more back _ hsecond)
  | rootAbsolute u rest hu hrest hcolon =>
    obtain ⟨more, rfl, rfl⟩ := append_held front back [u] rest hpath hle
    refine .rootAbsolute u more hu (head?_any_front more back _ hrest) fun hmore => hcolon ?_
    refine ⟨hmore.1, ?_⟩
    rw [List.head?_append, hmore.2, Option.some_or]
  | driveRelative l rest hl hrest =>
    obtain ⟨more, rfl, rfl⟩ := append_held front back [l, CodeUnit.colon] rest hpath hle
    exact .driveRelative l more hl (head?_any_front more back _ hrest)
  | driveAbsolute l u rest hl hu =>
    obtain ⟨more, rfl, rfl⟩ := append_held front back [l, CodeUnit.colon, u] rest hpath hle
    exact .driveAbsolute l u more hl hu
  | unc u v host w rest hu hv hhostne hfree hhost hw =>
    have hlength : (u :: v :: (host ++ [w])).length = host.length + 3 := by simp
    obtain ⟨more, rfl, rfl⟩ := append_held front back (u :: v :: (host ++ [w])) rest
      (by simpa using hpath) (Nat.le_trans (Nat.le_of_eq hlength) hle)
    have hform := Form.unc u v host w more hu hv hhostne hfree hhost hw
    simpa using hform
  | bareHome =>
    have hlength := congrArg List.length hpath
    simp only [List.length_append, List.length_singleton] at hlength hle
    omega
  | home u rest hu =>
    obtain ⟨more, rfl, rfl⟩ := append_held front back [CodeUnit.tilde, u] rest hpath hle
    exact .home u more hu
  | bareNamedHome name =>
    have hlength := congrArg List.length hpath
    simp only [List.length_append, List.length_cons] at hlength hle
    omega
  | namedHome name w rest hnamene hfree hw =>
    have hlength : (CodeUnit.tilde :: (name ++ [w])).length = name.length + 2 := by simp
    obtain ⟨more, rfl, rfl⟩ := append_held front back (CodeUnit.tilde :: (name ++ [w])) rest
      (by simpa using hpath) (Nat.le_trans (Nat.le_of_eq hlength) hle)
    have hform := Form.namedHome name w more hnamene hfree hw
    simpa using hform

end

theorem form_take (path : Text) (p : Prefix) (h : Form path p)
    (hle : p.length ≤ path.length) : Form (path.take p.length) p := by
  by_cases hpos : p.length = 0
  · obtain rfl : p = ⟨.relative, 0⟩ := by
      refine form_unique path p _ h (form_of_length_zero path ?_)
      rw [length?_of_form path p h, hpos]
    exact .empty
  · have hlength : (path.take p.length).length = p.length := List.length_take_of_le hle
    have hne : path.take p.length ≠ [] := List.ne_nil_of_length_pos (by omega)
    refine form_front (path.take p.length) (path.drop p.length) p ?_ hne (Nat.le_of_eq hlength.symm)
    rwa [List.take_append_drop]

/-! ## Longer paths -/

theorem form_append (base tail : Text) (p : Prefix) (h : Form base p) (hpos : 0 < p.length)
    (hle : p.length ≤ base.length)
    (htail : base.length ≤ p.length → Form tail ⟨.relative, 0⟩) :
    Form (base ++ tail) p := by
  cases h with
  | empty | relative => exact absurd hpos (Nat.lt_irrefl 0)
  | rootAbsolute u rest hu hrest hcolon =>
    cases rest with
    | cons v rest => exact .rootAbsolute u (v :: rest ++ tail) hu hrest hcolon
    | nil =>
      cases htail (Nat.le_refl 1) with
      | empty => exact .rootAbsolute u [] hu hrest hcolon
      | relative v tail _ hv hother => exact .rootAbsolute u (v :: tail) hu hother (by simp [hv])
  | driveRelative l rest hl hrest =>
    cases rest with
    | cons v rest => exact .driveRelative l (v :: rest ++ tail) hl hrest
    | nil =>
      cases htail (Nat.le_refl 2) with
      | empty => exact .driveRelative l [] hl hrest
      | relative v tail _ _ hother => exact .driveRelative l (v :: tail) hl hother
  | driveAbsolute l u rest hl hu => exact .driveAbsolute l u (rest ++ tail) hl hu
  | unc u v host w rest hu hv hne hfree hhost hw =>
    have hform := Form.unc u v host w (rest ++ tail) hu hv hne hfree hhost hw
    simpa using hform
  | bareHome => exact absurd hle (by decide)
  | home u rest hu => exact .home u (rest ++ tail) hu
  | bareNamedHome name => exact absurd hle (by simp)
  | namedHome name w rest hne hfree hw =>
    have hform := Form.namedHome name w (rest ++ tail) hne hfree hw
    simpa using hform

theorem form_append_virtual (base path : Text) (p : Prefix) (h : Form base p)
    (hlt : base.length < p.length) :
    Form (base ++ Separator.slash.unit :: path) p := by
  cases h with
  | bareHome => exact .home _ path (by decide)
  | bareNamedHome name hne hfree => exact .namedHome name _ path hne hfree (by decide)
  | unc | namedHome =>
    simp only [List.length_cons, List.length_append] at hlt
    omega
  | empty | relative | rootAbsolute | driveRelative | driveAbsolute | home =>
    simp only [List.length_cons] at hlt
    omega

/-- **The prefix grammar.** A prefix is found exactly on the paths of one of the forms, and then it
is the one that the form gives. It is at most one unit longer than its path, and longer only if the
path is a tilde with no separator behind it. -/
theorem parse?_decides_form (path : Text) :
    (∀ p, parse? path = some p ↔ Form path p) ∧
      (parse? path = none ↔ ∀ p, ¬ Form path p) ∧
      ∀ p, parse? path = some p → p.length ≤ path.length + 1 ∧
        (path.length < p.length ↔ path.head? = some CodeUnit.tilde ∧ SeparatorFree path) := by
  refine ⟨parse?_eq_some_iff_form path, ?_, ?_⟩
  · rw [Option.eq_none_iff_forall_ne_some]
    exact forall_congr' fun p => not_congr (parse?_eq_some_iff_form path p)
  · intro p hp
    have hform := (parse?_eq_some_iff_form path p).mp hp
    have hlen := form_length path p hform
    refine ⟨by omega, ?_, ?_⟩
    · intro hlt
      rcases hlen with hle | ⟨-, htilde, hfree⟩
      · omega
      · exact ⟨htilde, hfree⟩
    · rintro ⟨htilde, hfree⟩
      obtain ⟨name, rfl⟩ := List.head?_eq_some_iff.mp htilde
      rw [separatorFree_cons] at hfree
      rw [form_length_of_tilde name p hfree.2 hform, List.length_cons]
      omega

end LexicalPath.Prefix
