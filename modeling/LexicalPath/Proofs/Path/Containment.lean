import LexicalPath.Path.Equality
import LexicalPath.Proofs.Normal.Anchor
import LexicalPath.Proofs.Normal.Fixpoint
import LexicalPath.Proofs.Path.Parts

/-!
# Directories that contain a path

Containment is decided on texts: the parent, closed by a separator, has to come first in the child.
Between normal paths this compares rows of segments, as long as the parent is closed by the
separator that the child has. That is so only where the parent starts with a slash.
-/

namespace LexicalPath.Segments

open Text

/-! ## Rows that come first in others -/

theorem segment_prefix_iff (w : CodeUnit) (s t front back : Text) (hw : Separator.isUnit w = true)
    (hs : SeparatorFree s) (ht : SeparatorFree t) :
    s ++ w :: front <+: t ++ w :: back ↔ s = t ∧ front <+: back := by
  induction s generalizing t with
  | nil =>
    cases t with
    | nil => simp
    | cons v t =>
      have hne : w ≠ v := by
        rintro rfl
        rw [((separatorFree_cons w t).mp ht).1] at hw
        cases hw
      simp [hne]
  | cons u s ih =>
    rw [separatorFree_cons] at hs
    cases t with
    | nil =>
      have hne : u ≠ w := by
        rintro rfl
        rw [hs.1] at hw
        cases hw
      simp [hne]
    | cons v t =>
      rw [List.cons_append, List.cons_append, List.cons_prefix_cons, List.cons.injEq,
        ih t hs.2 ((separatorFree_cons v t).mp ht).2, and_assoc]

theorem not_isPrefix_of_separatorFree (w : CodeUnit) (s t front : Text)
    (hw : Separator.isUnit w = true) (ht : SeparatorFree t) : ¬ s ++ w :: front <+: t := by
  intro h
  have hmem : w ∈ t := List.IsPrefix.subset h (by simp)
  rw [ht w hmem] at hw
  cases hw

theorem closed_prefix_join_iff (sep : Separator) (ss ts : List Text)
    (hss : ∀ s ∈ ss, SeparatorFree s) (hts : ∀ t ∈ ts, SeparatorFree t) :
    closed sep ss <+: join sep ts ↔ ∃ more, ts = ss ++ more ∧ (more = [] → ss = []) := by
  induction ss generalizing ts with
  | nil => simp [closed_nil]
  | cons s ss ih =>
    rw [closed_cons]
    rw [List.forall_mem_cons] at hss
    match ts with
    | [] =>
      rw [join_nil]
      simp
    | [t] =>
      rw [join, List.intercalate_singleton]
      have ht : SeparatorFree t := hts t List.mem_cons_self
      refine iff_of_false (not_isPrefix_of_separatorFree _ s t _ sep.isUnit_unit ht) ?_
      rintro ⟨more, hmore, hne⟩
      obtain ⟨-, hnil⟩ := List.cons.inj hmore
      cases hne (List.append_eq_nil_iff.mp hnil.symm).2
    | t :: t' :: ts =>
      rw [List.forall_mem_cons] at hts
      rw [join_cons_cons, segment_prefix_iff _ _ _ _ _ sep.isUnit_unit hss.1 hts.1,
        ih (t' :: ts) hss.2 hts.2]
      constructor
      · rintro ⟨rfl, more, hmore, hne⟩
        refine ⟨more, by rw [hmore, List.cons_append], fun h => ?_⟩
        rw [h, hne h] at hmore
        cases hmore
      · rintro ⟨more, hmore, hne⟩
        obtain ⟨rfl, hrest⟩ := List.cons.inj hmore
        exact ⟨rfl, more, hrest, fun h => absurd (hne h) (List.cons_ne_nil _ _)⟩

theorem ne_nil_of_proper (s : Text) (h : isDirectoryMark s = false) : s ≠ [] := by
  rintro rfl
  exact absurd h (by decide)

theorem filter_splitOnP_join (sep : Separator) (segments : List Text)
    (h : ∀ s ∈ segments, SeparatorFree s ∧ isDirectoryMark s = false) :
    ((join sep segments).splitOnP Separator.isUnit).filter (!·.isEmpty) = segments := by
  by_cases hne : segments = []
  · rw [hne, join_nil, List.splitOnP_nil]
    rfl
  · rw [splitOnP_join sep segments hne fun s hs => (h s hs).1, List.filter_eq_self]
    intro s hs
    cases s with
    | nil => exact absurd (h [] hs).2 (by decide)
    | cons u s => rfl

theorem remainder_dropped_eq_join (sep : Separator) (segments : List Text) (isDirectory : Bool) :
    remainder sep .dropped segments isDirectory = join sep segments := by
  unfold remainder
  simp

theorem join_head? (sep : Separator) (segments : List Text)
    (h : ∀ s ∈ segments, SeparatorFree s ∧ isDirectoryMark s = false) :
    (join sep segments).head?.any Separator.isUnit = false := by
  rw [← remainder_dropped_eq_join sep segments false]
  exact remainder_head? sep .dropped segments false h

theorem join_ne_nil (sep : Separator) (segments : List Text) (hne : segments ≠ [])
    (h : ∀ s ∈ segments, SeparatorFree s ∧ isDirectoryMark s = false) : join sep segments ≠ [] := by
  intro hjoin
  have hfilter := filter_splitOnP_join sep segments h
  rw [hjoin, List.splitOnP_nil] at hfilter
  exact hne hfilter.symm

theorem join_getLast? (sep : Separator) (segments : List Text) (hne : segments ≠ [])
    (h : ∀ s ∈ segments, SeparatorFree s ∧ isDirectoryMark s = false) :
    (join sep segments).getLast? ≠ some sep.unit := by
  intro hlast
  obtain ⟨init, hinit⟩ := List.getLast?_eq_some_iff.mp hlast
  have hsplit : segments = init.splitOnP Separator.isUnit ++ [[]] := by
    rw [← splitOnP_append_separator init _ sep.isUnit_unit, ← hinit,
      splitOnP_join sep segments hne fun s hs => (h s hs).1]
  have hempty : [] ∈ segments := by simp [hsplit]
  exact absurd (h [] hempty).2 (by decide)

end LexicalPath.Segments

namespace LexicalPath.Path

open Text Segments

/-! ## Places and segments -/

/-- The segments behind the prefix of a path. -/
def segments? (path : Text) : Option (List Text) :=
  (Prefix.length? path).map fun start =>
    ((path.drop start).splitOnP Separator.isUnit).filter (!·.isEmpty)

/-- The child starts from the same place as the parent, passes the same segments, and goes on. -/
def IsAbove (parent child : Text) : Prop :=
  anchor parent = anchor child ∧ ∃ segments more,
    segments? parent = some segments ∧ segments? child = some (segments ++ more) ∧ more ≠ []

/-- The places that a normal path with a slash in front starts from. -/
inductive Rooted : Text → Prefix.Kind → Prop where
  | root : Rooted [CodeUnit.slash] .rootAbsolute
  | share (host : Text) (hne : host ≠ []) (hfree : SeparatorFree host)
      (hhost : Host.isValid host = true) :
      Rooted (CodeUnit.slash :: CodeUnit.slash :: (host ++ [CodeUnit.slash])) .unc

theorem Rooted.head? {base : Text} {kind : Prefix.Kind} (h : Rooted base kind) :
    base.head? = some CodeUnit.slash := by
  cases h <;> rfl

theorem Rooted.getLast? {base : Text} {kind : Prefix.Kind} (h : Rooted base kind) :
    base.getLast? = some CodeUnit.slash := by
  cases h with
  | root => rfl
  | share host => exact List.getLast?_concat (l := _ :: _ :: host)

theorem Rooted.append_ne_nil {base t : Text} {kind : Prefix.Kind} (h : Rooted base kind) :
    base ++ t ≠ [] := by
  cases h <;> simp

section

variable (base : Text) (kind : Prefix.Kind) (segments : List Text) (hbase : Rooted base kind)
  (h : ∀ s ∈ segments, SeparatorFree s ∧ isDirectoryMark s = false)

include hbase h

theorem form_rooted : Prefix.Form (base ++ Segments.join .slash segments) ⟨kind, base.length⟩ := by
  have hhead := join_head? .slash segments h
  cases hbase with
  | root =>
    refine (Prefix.form_rootAbsolute_iff _ _ (by decide) hhead).mpr fun hcolon => ?_
    exact absurd hcolon.1 (by decide)
  | share host hne hfree hhost =>
    have hform := form_host_append .slash host (Segments.join .slash segments) hne hfree hhost
    simpa [Separator.unit] using hform

theorem segments?_rooted : segments? (base ++ Segments.join .slash segments) = some segments := by
  unfold segments?
  rw [Prefix.length?_of_form _ _ (form_rooted base kind segments hbase h), Option.map_some, List.drop_left, filter_splitOnP_join .slash segments h]

theorem anchor_rooted (hnul : CodeUnit.nul ∉ base ++ Segments.join .slash segments) :
    anchor (base ++ Segments.join .slash segments) = .ok (some base) := by
  rw [anchor_eq _ _ (form_rooted base kind segments hbase h) hnul, if_neg (by simp), List.take_left]

theorem closed_rooted :
    closed (base ++ Segments.join .slash segments) = base ++ Segments.closed .slash segments := by
  have hclosing : closingSeparator (base ++ Segments.join .slash segments) = .slash := by
    unfold closingSeparator
    rw [List.head?_append, hbase.head?, Option.some_or, if_pos rfl]
  unfold closed
  rw [hclosing]
  by_cases hne : segments = []
  · rw [hne, join_nil, List.append_nil, Segments.closed_nil, List.append_nil, hbase.getLast?]
    exact if_pos rfl
  · rw [List.getLast?_append_of_ne_nil _ (join_ne_nil .slash segments hne h),
      if_neg (join_getLast? .slash segments hne h), List.append_assoc,
      join_append_unit .slash segments hne]

end

theorem anchor_head?_ne (start : Nat) (u : CodeUnit) (rest t : Text) (hstart : 0 < start)
    (hu : Separator.isUnit u = false) :
    (Segments.anchor .slash start (u :: rest) ++ t).head? ≠ some CodeUnit.slash := by
  obtain ⟨n, rfl⟩ := Nat.exists_eq_add_of_lt hstart
  have hne : u ≠ CodeUnit.slash := by
    rintro rfl
    exact absurd hu (by decide)
  unfold Segments.anchor
  rw [List.take_succ_cons, withSeparator_cons_other u _ .slash hu]
  simpa using hne

theorem rooted_of_normalize (path r : Text) (h : normalize .slash .dropped path = .ok (some r))
    (hslash : r.head? = some CodeUnit.slash) :
    ∃ base kind segments, Rooted base kind ∧ r = base ++ Segments.join .slash segments ∧
      ∀ s ∈ segments, SeparatorFree s ∧ isDirectoryMark s = false := by
  obtain ⟨-, start, segments, hstart, hsegments, rfl⟩ := (normalize_eq_some_iff _ _ _ _).mp h
  have hproper := remaining_segments _ segments hsegments
  obtain ⟨kind, hform⟩ := (Prefix.length?_eq_some_iff_form path start).mp hstart
  rw [remainder_dropped_eq_join] at hslash ⊢
  cases hform with
  | empty | relative =>
    have hhead := join_head? .slash segments hproper
    have hjoin : (Segments.join .slash segments).head? = some CodeUnit.slash := hslash
    rw [hjoin] at hhead
    exact absurd hhead (by decide)
  | rootAbsolute u rest hu =>
    refine ⟨_, _, segments, .root, ?_, hproper⟩
    rw [anchor_root .slash u rest hu]
    rfl
  | driveRelative l rest hl | driveAbsolute l u rest hl =>
    have hother := (CodeUnit.isLetter_ne_unit l hl).2.2
    exact absurd hslash (anchor_head?_ne _ l _ _ (by decide) hother)
  | unc u v host w rest hu hv hne hfree hhost hw =>
    refine ⟨_, _, segments, .share host hne hfree hhost, ?_, hproper⟩
    rw [anchor_host .slash u v host w rest hu hv hfree hw]
    rfl
  | bareHome | home | bareNamedHome | namedHome =>
    exact absurd hslash (anchor_head?_ne _ CodeUnit.tilde _ _ (by omega) Separator.isUnit_tilde)

/-! ## The comparison -/

theorem base_of_isPrefix (base base' : Text) (kind kind' : Prefix.Kind) (ss ts : List Text)
    (hbase : Rooted base kind) (hbase' : Rooted base' kind')
    (hss : ∀ s ∈ ss, SeparatorFree s ∧ isDirectoryMark s = false)
    (hts : ∀ t ∈ ts, SeparatorFree t ∧ isDirectoryMark t = false)
    (h : base ++ Segments.closed .slash ss <+: base' ++ Segments.join .slash ts) :
    base = base' ∨ (base = [CodeUnit.slash] ∧ ss = [] ∧ kind' = .unc) := by
  cases hbase with
  | root =>
    cases hbase' with
    | root => exact Or.inl rfl
    | share host' =>
      refine Or.inr ⟨rfl, ?_, rfl⟩
      cases ss with
      | nil => rfl
      | cons s ss =>
        obtain ⟨hfree, hmark⟩ := hss s List.mem_cons_self
        obtain ⟨u, s, rfl⟩ := List.exists_cons_of_ne_nil (ne_nil_of_proper s hmark)
        have hu : u = CodeUnit.slash := by
          rw [Segments.closed_cons] at h
          simp only [List.cons_append, List.nil_append, List.cons_prefix_cons] at h
          exact h.2.1
        exact absurd (hfree u List.mem_cons_self) (by rw [hu]; decide)
  | share host hne hfree =>
    cases hbase' with
    | root =>
      have hhead := join_head? .slash ts hts
      have hslash : (Segments.join .slash ts).head? = some CodeUnit.slash := by
        obtain ⟨rest, hrest⟩ := (List.cons_prefix_cons.mp h).2
        have hjoin : Segments.join .slash ts = _ := hrest.symm
        rw [hjoin]
        rfl
      rw [hslash] at hhead
      exact absurd hhead (by decide)
    | share host' hne' hfree' =>
      have hhost : host ++ CodeUnit.slash :: Segments.closed .slash ss <+:
          host' ++ CodeUnit.slash :: Segments.join .slash ts := by
        simpa using h
      have heq := (segment_prefix_iff _ host host' _ _ (by decide) hfree hfree').mp hhost
      rw [heq.1]
      exact Or.inl rfl

theorem contains_eq_true_iff (parent child : Text) :
    contains parent child = true ↔
      parent ≠ [] ∧ child ≠ [] ∧ parent ≠ child ∧ closed parent <+: child := by
  simp [contains, CaseRule.equal, CaseRule.startsWith, CaseRule.isSensitive, and_assoc]

theorem contains_rooted_iff (base base' : Text) (kind kind' : Prefix.Kind) (ss ts : List Text)
    (hbase : Rooted base kind) (hbase' : Rooted base' kind')
    (hss : ∀ s ∈ ss, SeparatorFree s ∧ isDirectoryMark s = false)
    (hts : ∀ t ∈ ts, SeparatorFree t ∧ isDirectoryMark t = false)
    (hnul : CodeUnit.nul ∉ base ++ Segments.join .slash ss)
    (hnul' : CodeUnit.nul ∉ base' ++ Segments.join .slash ts) :
    contains (base ++ Segments.join .slash ss) (base' ++ Segments.join .slash ts) = true ↔
      IsAbove (base ++ Segments.join .slash ss) (base' ++ Segments.join .slash ts) ∨
        (base ++ Segments.join .slash ss = [CodeUnit.slash] ∧ kind' = .unc) := by
  have hanchor := anchor_rooted base kind ss hbase hss hnul
  have hanchor' := anchor_rooted base' kind' ts hbase' hts hnul'
  have hsegments := segments?_rooted base kind ss hbase hss
  have hsegments' := segments?_rooted base' kind' ts hbase' hts
  have hclosed := closed_rooted base kind ss hbase hss
  have hrow := closed_prefix_join_iff .slash ss ts (fun s hs => (hss s hs).1)
    fun t ht => (hts t ht).1
  rw [contains_eq_true_iff]
  constructor
  · rintro ⟨-, -, hne, hfront⟩
    rw [hclosed] at hfront
    rcases base_of_isPrefix base base' kind kind' ss ts hbase hbase' hss hts hfront with
      rfl | ⟨rfl, rfl, hunc⟩
    · obtain ⟨more, rfl, -⟩ := hrow.mp ((List.prefix_append_right_inj base).mp hfront)
      refine Or.inl ⟨hanchor.trans hanchor'.symm, ss, more, hsegments, hsegments', ?_⟩
      rintro rfl
      exact hne (by rw [List.append_nil])
    · exact Or.inr ⟨by rw [join_nil, List.append_nil], hunc⟩
  · rintro (⟨habove, ss', more, hs, ht, hmore⟩ | ⟨hroot, rfl⟩)
    · obtain rfl : ss' = ss := Option.some.inj (hs.symm.trans hsegments)
      have hmore' : ts = ss' ++ more := Option.some.inj (hsegments'.symm.trans ht)
      have hplace : base = base' := by
        have hplace := hanchor.symm.trans (habove.trans hanchor')
        simpa using hplace
      refine ⟨hbase.append_ne_nil, hbase'.append_ne_nil, fun heq => ?_, ?_⟩
      · have hsame : ss' = ss' ++ more := by
          rw [← hmore']
          exact Option.some.inj (hsegments.symm.trans ((congrArg segments? heq).trans hsegments'))
        exact hmore (List.append_right_eq_self.mp hsame.symm)
      · rw [hclosed, hplace]
        exact (List.prefix_append_right_inj base').mpr
          (hrow.mpr ⟨more, hmore', fun h => absurd h hmore⟩)
    · -- The root ends with a slash already, and a share starts with two of them.
      rw [hroot]
      cases hbase' with
      | share host => exact ⟨by decide, by simp, by simp, ⟨_, rfl⟩⟩

/-! ## Other parents and children -/

theorem backslash_mem_closed (parent : Text) (h : parent.head? ≠ some CodeUnit.slash) :
    CodeUnit.backslash ∈ closed parent := by
  unfold closed closingSeparator
  rw [if_neg h]
  split
  · next hlast => exact List.mem_of_getLast? hlast
  · exact List.mem_append_right parent (List.mem_singleton.mpr rfl)

theorem prefix_closed (parent : Text) : parent <+: closed parent := by
  unfold closed
  split
  · exact List.prefix_rfl
  · exact List.prefix_append _ _

theorem head?_of_isPrefix (s t : Text) (u : CodeUnit) (h : s <+: t) (hs : s.head? = some u) :
    t.head? = some u := by
  obtain ⟨rest, rfl⟩ := h
  rw [List.head?_append, hs, Option.some_or]

theorem head?_of_anchor (path pre : Text) (hnul : CodeUnit.nul ∉ path) (u : CodeUnit)
    (h : anchor path = .ok (some pre)) (hu : pre.head? = some u) : path.head? = some u := by
  cases hlen : Prefix.length? path with
  | none =>
    rw [anchor, hlen] at h
    cases h
  | some start =>
    obtain ⟨kind, hform⟩ := (Prefix.length?_eq_some_iff_form path start).mp hlen
    rw [anchor_eq path _ hform hnul] at h
    obtain rfl := Option.some.inj (Except.ok.inj h)
    split at hu
    · next hlt =>
      rcases Prefix.form_length path _ hform with hle | ⟨-, htilde, -⟩
      · exact absurd hle (Nat.not_le.mpr hlt)
      · rwa [List.head?_append, htilde, Option.some_or, ← htilde] at hu
    · exact head?_of_isPrefix _ path u (List.take_prefix _ _) hu

theorem contains_slash_iff (p c parent child : Text)
    (hp : normalize .slash .dropped p = .ok (some parent))
    (hc : normalize .slash .dropped c = .ok (some child))
    (hslash : parent.head? = some CodeUnit.slash) (hslash' : child.head? = some CodeUnit.slash) :
    contains parent child = true ↔ IsAbove parent child ∨
      (parent = [CodeUnit.slash] ∧ ∃ n, Prefix.parse? child = some ⟨.unc, n⟩) := by
  have hnul := nul_not_mem_normal .slash .dropped p parent hp
  have hnul' := nul_not_mem_normal .slash .dropped c child hc
  obtain ⟨base, kind, ss, hbase, rfl, hss⟩ := rooted_of_normalize p parent hp hslash
  obtain ⟨base', kind', ts, hbase', rfl, hts⟩ := rooted_of_normalize c child hc hslash'
  rw [contains_rooted_iff base base' kind kind' ss ts hbase hbase' hss hts hnul hnul',
    Prefix.parse?_of_form _ _ (form_rooted base' kind' ts hbase' hts)]
  simp

/-- **Containment of normal paths.** A directory contains the paths that go on from it, provided
that it starts with a slash, and the root contains the shares as well. No other directory contains
anything. -/
theorem contains_normal_iff (p c parent child : Text)
    (hp : normalize .slash .dropped p = .ok (some parent))
    (hc : normalize .slash .dropped c = .ok (some child)) :
    contains parent child = true ↔ parent.head? = some CodeUnit.slash ∧
      (IsAbove parent child ∨
        (parent = [CodeUnit.slash] ∧ ∃ n, Prefix.parse? child = some ⟨.unc, n⟩)) := by
  constructor
  · intro h
    obtain ⟨-, -, -, hfront⟩ := (contains_eq_true_iff parent child).mp h
    have hslash : parent.head? = some CodeUnit.slash := by
      -- What is closed by a backslash does not come first in a text without one.
      by_contra hother
      exact other_not_mem_normal .slash .dropped c child hc
        (List.IsPrefix.subset hfront (backslash_mem_closed parent hother))
    have hslash' : child.head? = some CodeUnit.slash :=
      head?_of_isPrefix _ _ _ ((prefix_closed parent).trans hfront) hslash
    exact ⟨hslash, (contains_slash_iff p c parent child hp hc hslash hslash').mp h⟩
  · rintro ⟨hslash, h⟩
    have hslash' : child.head? = some CodeUnit.slash := by
      rcases h with ⟨habove, -⟩ | ⟨-, n, hunc⟩
      · obtain ⟨base, kind, ss, hbase, rfl, hss⟩ := rooted_of_normalize p parent hp hslash
        have hnul := nul_not_mem_normal .slash .dropped p _ hp
        have hanchor := anchor_rooted base kind ss hbase hss hnul
        exact head?_of_anchor child base (nul_not_mem_normal .slash .dropped c child hc) _
          (habove.symm.trans hanchor) hbase.head?
      · have hother := other_not_mem_normal .slash .dropped c child hc
        cases (Prefix.parse?_eq_some_iff_form child _).mp hunc with
        | unc u v host w rest hu =>
          rcases (Separator.isUnit_iff u).mp hu with rfl | rfl
          · rfl
          · exact absurd List.mem_cons_self hother
    exact (contains_slash_iff p c parent child hp hc hslash hslash').mpr h

theorem contains_in_root :
    normalize .slash .dropped [CodeUnit.slash, 0x61] = .ok (some [CodeUnit.slash, 0x61]) ∧
      normalize .slash .dropped
          [CodeUnit.slash, 0x61, CodeUnit.slash, CodeUnit.dot, CodeUnit.slash, 0x62] =
        .ok (some [CodeUnit.slash, 0x61, CodeUnit.slash, 0x62]) ∧
      contains [CodeUnit.slash, 0x61] [CodeUnit.slash, 0x61, CodeUnit.slash, 0x62] = true := by
  have hp : normalize .slash .dropped [CodeUnit.slash, 0x61] =
      .ok (some [CodeUnit.slash, 0x61]) := by
    decide +kernel
  have hc : normalize .slash .dropped
      [CodeUnit.slash, 0x61, CodeUnit.slash, CodeUnit.dot, CodeUnit.slash, 0x62] =
        .ok (some [CodeUnit.slash, 0x61, CodeUnit.slash, 0x62]) := by
    decide +kernel
  refine ⟨hp, hc, (contains_normal_iff _ _ _ _ hp hc).mpr ⟨rfl, Or.inl ⟨by decide, ?_⟩⟩⟩
  exact ⟨[[0x61]], [[0x62]], by decide +kernel, by decide +kernel, by decide⟩

/-- The directory `a` does not contain `a/b`, because it is closed by a backslash. -/
theorem contains_misses_relative :
    ¬ ∀ p c parent child : Text, CodeUnit.nul ∉ p → CodeUnit.nul ∉ c →
      normalize .slash .dropped p = .ok (some parent) →
      normalize .slash .dropped c = .ok (some child) → parent ≠ [] →
      Prefix.parse? parent = Prefix.parse? p → Prefix.parse? child = Prefix.parse? c →
      (contains parent child = true ↔ IsAbove parent child) := by
  intro h
  have hcontains := h [0x61] [0x61, CodeUnit.slash, 0x62] [0x61] [0x61, CodeUnit.slash, 0x62]
    (by decide) (by decide) (by decide +kernel) (by decide +kernel) (by decide) rfl rfl
  have habove : IsAbove [0x61] [0x61, CodeUnit.slash, 0x62] :=
    ⟨by decide, [[0x61]], [[0x62]], by decide +kernel, by decide +kernel, by decide⟩
  exact absurd (hcontains.mpr habove) (by decide)

end LexicalPath.Path
