import LexicalPath.Normal.Segments
import LexicalPath.Proofs.Normal.StepOut
import LexicalPath.Proofs.Prefix.Grammar

/-!
# The edit computes the normal form

The prefix in its chosen convention is the base, and the segments behind it are the row. The three
scans leave the base with the segments that remain when all steps are taken.
-/

namespace LexicalPath.Scan

open Text Segments

/-! ## The three scans -/

/-- Whether the scans find that the last segment names a directory. -/
def marked (row : List Text) : Bool :=
  endsIn [CodeUnit.dot] (row.filter (!·.isEmpty)) ||
    endsIn [CodeUnit.dot, CodeUnit.dot] ((row.filter (!·.isEmpty)).filter (· != [CodeUnit.dot]))

theorem marked_snoc (init : List Text) (last : Text) (hne : last ≠ []) :
    marked (init ++ [last]) = isDirectoryMark last := by
  unfold marked endsIn isDirectoryMark isEmptyOrDot isDotDot
  have hempty : last.isEmpty = false := by simpa using hne
  by_cases hdot : last = [CodeUnit.dot]
  · subst hdot
    simp
  · simp [hempty, hdot]

theorem resolve_scanned (row : List Text) :
    resolve [] ((row.filter (!·.isEmpty)).filter (· != [CodeUnit.dot])) = resolve [] row := by
  rw [resolve_filter, resolve_filter_nonempty]
  intro s hs
  rw [bne_eq_false_iff_eq] at hs
  simp [isEmptyOrDot, hs]

/-- The three scans of an edit. -/
def scans (sep : Separator) (start : Nat) (s : Scan) : Except EditError Scan := do
  let s ← s.scanFrom (squeeze sep) (max start 1)
  let s ← s.scanFrom (dropDot sep start) (start + 1)
  s.scanFrom (stepOut sep start) (start + 2)

theorem scans_row (sep : Separator) (base : Text) (row : List Text) (s : Scan)
    (hholds : s.Holds (rowText sep base row)) (hfree : ∀ seg ∈ row, SeparatorFree seg)
    (hopened : base.getLast? = some sep.unit ∨ row.head? ≠ some []) :
    StepOutPost sep base (resolve [] row) (s.isDirectory || marked row) (scans sep base.length s) := by
  obtain ⟨s1, hs1, hholds1, hdir1⟩ := squeeze_row sep base row s hholds hfree hopened
  have hfree1 : ∀ seg ∈ row.filter (!·.isEmpty), SeparatorFree seg :=
    fun seg hseg => hfree seg (List.mem_of_mem_filter hseg)
  have hne1 : ∀ seg ∈ row.filter (!·.isEmpty), seg ≠ [] := by
    intro seg hseg
    simpa using (List.mem_filter.mp hseg).2
  obtain ⟨s2, hs2, hholds2, hdir2⟩ := dropDot_row sep base _ s1 hholds1 hfree1 hne1
  have hproper : ∀ seg ∈ (row.filter (!·.isEmpty)).filter (· != [CodeUnit.dot]),
      isEmptyOrDot seg = false := by
    intro seg hseg
    rw [List.mem_filter] at hseg
    unfold isEmptyOrDot
    rw [Bool.or_eq_false_iff]
    exact ⟨by simpa using hne1 seg hseg.1, by simpa using hseg.2⟩
  have hpost := stepOut_row sep base _ s2 hholds2
    (fun seg hseg => hfree1 seg (List.mem_of_mem_filter hseg)) hproper
  rw [resolve_scanned, hdir2, hdir1, Bool.or_assoc] at hpost
  unfold scans
  rw [hs1, ok_bind, hs2, ok_bind]
  exact hpost

/-! ## The start of an edit -/

theorem write_appends (b : Buffer) (t : Text) (u : CodeUnit) (hroom : t.length < b.size)
    (h : t <+: b.toList) : ∃ b', b.write t.length u = .ok b' ∧ t ++ [u] <+: b'.toList := by
  obtain ⟨tail, htail⟩ := h
  have hlen : t.length + tail.length = b.size := by
    rw [← List.length_append, htail, Array.length_toList]
  obtain ⟨x, tail, rfl⟩ := List.exists_cons_of_length_pos (show 0 < tail.length by omega)
  refine ⟨_, if_pos (by omega), tail, ?_⟩
  rw [Array.toList_setIfInBounds, ← htail, Int.toNat_natCast]
  simp

theorem ofPath_closed (sep : Separator) (path : Text)
    (h : (Buffer.ofText (path.withSeparator sep) 2).holds (path.length - 1) sep.unit = .ok true) :
    ofPath sep path = .ok {
      buffer := Buffer.ofText (path.withSeparator sep) 2, size := path.length, pos := 0
      isDirectory := true } := by
  unfold ofPath
  simp [h]

theorem ofPath_unclosed (sep : Separator) (path : Text) (b : Buffer)
    (h : (Buffer.ofText (path.withSeparator sep) 2).holds (path.length - 1) sep.unit = .ok false)
    (hb : (Buffer.ofText (path.withSeparator sep) 2).write path.length sep.unit = .ok b) :
    ofPath sep path = .ok { buffer := b, size := path.length + 1, pos := 0, isDirectory := false } := by
  unfold ofPath
  simp [h, hb]

theorem ofPath_spec (sep : Separator) (path : Text) (hne : path ≠ []) :
    ∃ s, ofPath sep path = .ok s ∧ s.isDirectory = path.endsWithSeparator ∧
      s.Holds (path.withSeparator sep ++ if path.endsWithSeparator then [] else [sep.unit]) := by
  have hlen := withSeparator_length path sep
  have hsize := Buffer.size_ofText (path.withSeparator sep) 2
  have hcontents : path.withSeparator sep <+: (Buffer.ofText (path.withSeparator sep) 2).toList := by
    simp [Buffer.ofText]
  obtain ⟨init, c, hinit⟩ := (List.eq_nil_or_concat' (path.withSeparator sep)).resolve_left
    (fun h => hne (List.map_eq_nil_iff.mp h))
  have hlast : (c == sep.unit) = path.endsWithSeparator := by
    rw [Bool.eq_iff_iff, ← withSeparator_getLast?, hinit, List.getLast?_concat]
    simp
  have hread : (Buffer.ofText (path.withSeparator sep) 2).holds (path.length - 1) sep.unit =
      .ok path.endsWithSeparator := by
    unfold Buffer.holds
    rw [← hlast, read_at _ init c [] _ (by rw [← hinit]; exact hcontents), map_ok]
    rw [← hlen, hinit, List.length_append, List.length_singleton]
    omega
  cases hends : path.endsWithSeparator with
  | true =>
    rw [hends] at hread
    refine ⟨_, ofPath_closed sep path hread, rfl, ?_⟩
    rw [if_pos rfl, List.append_nil]
    exact ⟨by simp only [hlen], by simp only; omega, hcontents⟩
  | false =>
    rw [hends] at hread
    obtain ⟨b, hb, happended⟩ := write_appends _ (path.withSeparator sep) sep.unit (by omega) hcontents
    rw [hlen] at hb
    refine ⟨_, ofPath_unclosed sep path b hread hb, rfl, ?_⟩
    rw [if_neg (by simp)]
    refine ⟨?_, ?_, happended⟩
    · rw [List.length_append, hlen]
      rfl
    · rw [Buffer.size_of_write hb, List.length_append, List.length_singleton]
      omega

/-- The scans start from a row behind the base. The empty segment behind a last separator is not in
the row, and the flag stands for it. -/
structure Opening (sep : Separator) (base : Text) (raw row : List Text) (s : Scan) : Prop where
  holds : s.Holds (rowText sep base row)
  free : ∀ seg ∈ row, SeparatorFree seg
  opened : base.getLast? = some sep.unit ∨ row.head? ≠ some []
  closing : (raw = row ++ [[]] ∧ (s.isDirectory = true ∨ row = [])) ∨
    (raw = row ∧ row.getLast? ≠ some [] ∧ s.isDirectory = false)

theorem opening_virtual (sep : Separator) (start : Nat) (path : Text) (s : Scan)
    (hlt : path.length < start) (hends : path.endsWithSeparator = false)
    (hholds : s.Holds (path.withSeparator sep ++ if path.endsWithSeparator then [] else [sep.unit])) :
    Opening sep (Segments.anchor sep start path) ((path.drop start).splitOnP Separator.isUnit) [] s := by
  rw [anchor_of_lt sep start path hlt, List.drop_of_length_le (Nat.le_of_lt hlt), List.splitOnP_nil]
  refine ⟨?_, by simp, Or.inl List.getLast?_concat, Or.inl ⟨rfl, Or.inr rfl⟩⟩
  rw [hends] at hholds
  rw [rowText_nil]
  exact hholds

theorem opening_whole (sep : Separator) (start : Nat) (path : Text) (s : Scan)
    (hle : start ≤ path.length) (hrest : path.drop start = [])
    (hends : path.endsWithSeparator = true)
    (hholds : s.Holds (path.withSeparator sep ++ if path.endsWithSeparator then [] else [sep.unit])) :
    Opening sep (Segments.anchor sep start path) ((path.drop start).splitOnP Separator.isUnit) [] s := by
  have hanchor := withSeparator_eq_anchor sep start path hle
  rw [hrest, show withSeparator [] sep = [] from rfl, List.append_nil] at hanchor
  rw [← hanchor, hrest, List.splitOnP_nil]
  refine ⟨?_, by simp, Or.inl ((withSeparator_getLast? path sep).mpr hends), Or.inl ⟨rfl, Or.inr rfl⟩⟩
  rw [hends, if_pos rfl, List.append_nil] at hholds
  rw [rowText_nil]
  exact hholds

theorem opening_rest (sep : Separator) (start : Nat) (path : Text) (s : Scan)
    (hlt : start < path.length) (hboundary : endsWithSeparator (path.take start) = true ∨
      (path.drop start).head?.any Separator.isUnit = false)
    (hdir : s.isDirectory = path.endsWithSeparator)
    (hholds : s.Holds (path.withSeparator sep ++ if path.endsWithSeparator then [] else [sep.unit])) :
    ∃ row, Opening sep (Segments.anchor sep start path)
      ((path.drop start).splitOnP Separator.isUnit) row s := by
  have hle := Nat.le_of_lt hlt
  have hne : path.drop start ≠ [] := by
    rw [Ne, List.drop_eq_nil_iff]
    omega
  have hends : path.endsWithSeparator = endsWithSeparator (path.drop start) := by
    unfold endsWithSeparator
    rw [List.getLast?_drop, if_neg (by omega)]
  have hopened : (Segments.anchor sep start path).getLast? = some sep.unit ∨
      ((path.drop start).splitOnP Separator.isUnit).head? ≠ some [] := by
    rw [anchor_of_le sep start path hle, withSeparator_getLast?]
    exact hboundary.imp_right (head?_splitOnP _ hne)
  have hfree := separatorFree_of_mem_splitOnP (path.drop start)
  rw [withSeparator_eq_anchor sep start path hle, List.append_assoc, hends] at hholds
  rw [hends] at hdir
  generalize path.drop start = rest at *
  cases hrest : endsWithSeparator rest with
  | false =>
    rw [hrest, if_neg (by simp), ← closed_splitOnP] at hholds
    exact ⟨_, hholds, hfree, hopened, Or.inr ⟨rfl, getLast?_splitOnP rest hne hrest, hdir.trans hrest⟩⟩
  | true =>
    obtain ⟨init, w, rfl⟩ := (List.eq_nil_or_concat' rest).resolve_left hne
    have hw : Separator.isUnit w = true := by simpa [endsWithSeparator] using hrest
    rw [splitOnP_append_separator init w hw] at hopened hfree ⊢
    rw [hrest, if_pos rfl, List.append_nil, withSeparator_append,
      withSeparator_cons_separator w [] sep hw, show withSeparator [] sep = [] from rfl,
      ← closed_splitOnP] at hholds
    refine ⟨_, hholds, fun seg hseg => hfree seg (List.mem_append_left _ hseg), ?_,
      Or.inl ⟨rfl, Or.inl (hdir.trans hrest)⟩⟩
    rwa [List.head?_append_of_ne_nil _ (List.splitOnP_ne_nil Separator.isUnit init)] at hopened

theorem Opening.resolve_eq (sep : Separator) (base : Text) (raw row : List Text) (s : Scan)
    (h : Opening sep base raw row s) : resolve [] raw = resolve [] row := by
  rcases h.closing with ⟨rfl, -⟩ | ⟨rfl, -⟩
  · exact resolve_concat_nil [] row
  · rfl

theorem Opening.marked_eq (sep : Separator) (base : Text) (raw row : List Text) (s : Scan)
    (h : Opening sep base raw row s) (segments : List Text) (hsegments : resolve [] row = some segments)
    (hne : segments ≠ []) : (s.isDirectory || marked row) = raw.getLast?.any isDirectoryMark := by
  have hrow : row ≠ [] := by
    rintro rfl
    exact hne (Option.some.inj hsegments).symm
  rcases h.closing with ⟨rfl, hdir⟩ | ⟨rfl, hlast, hdir⟩
  · rw [hdir.resolve_right hrow, List.getLast?_concat]
    rfl
  · obtain ⟨init, last, rfl⟩ := (List.eq_nil_or_concat' raw).resolve_left hrow
    rw [List.getLast?_concat] at hlast ⊢
    rw [hdir, Bool.false_or, marked_snoc init last (fun h => hlast (congrArg some h)), Option.any_some]

/-! ## The text at the end -/

theorem text_row (sep : Separator) (ending : Ending) (base : Text) (segments : List Text) (s : Scan)
    (hholds : s.Holds (rowText sep base segments)) :
    s.text ending base.length = base ++ remainder sep ending segments s.isDirectory := by
  have hsize := hholds.size_eq
  have htake := List.prefix_iff_eq_take.mp hholds.contents
  by_cases hne : segments = []
  · subst hne
    rw [rowText_nil] at hsize htake
    unfold text
    rw [if_pos (Or.inl (by omega)), hsize, Int.toNat_natCast, ← htake, remainder_nil, List.append_nil]
  · have hrow : rowText sep base segments = base ++ join sep segments ++ [sep.unit] := by
      unfold rowText
      rw [← join_append_unit sep segments hne, List.append_assoc]
    have hlen := congrArg List.length hrow
    rw [List.length_append, List.length_singleton, List.length_append] at hlen
    unfold text remainder
    rw [← List.append_assoc]
    by_cases hkept : ending = .kept ∧ s.isDirectory = true
    · rw [if_pos (Or.inr hkept.symm), hsize, Int.toNat_natCast, ← htake, hrow,
        if_pos ⟨hkept.1, hne, hkept.2⟩]
    · rw [if_neg, if_neg (fun h => hkept ⟨h.1, h.2.2⟩), List.append_nil, hsize]
      · have hlast : ((rowText sep base segments).length - 1 : Int).toNat =
            (base ++ join sep segments).length := by
          rw [List.length_append]
          omega
        obtain ⟨tail, htail⟩ := hholds.contents
        rw [hlast, ← htail, hrow, List.append_assoc, List.take_left]
      · rintro (h | h)
        · omega
        · exact hkept h.symm

theorem text_scans (sep : Separator) (ending : Ending) (base : Text) (raw row : List Text) (s : Scan)
    (h : Opening sep base raw row s) :
    ((scans sep base.length s).map (text ending base.length)).toOption =
      (resolve [] raw).map fun segments =>
        base ++ remainder sep ending segments (raw.getLast?.any isDirectoryMark) := by
  have hpost := scans_row sep base row s h.holds h.free h.opened
  rw [h.resolve_eq]
  cases hgoal : resolve [] row with
  | none =>
    rw [hgoal, StepOutPost] at hpost
    rw [hpost, map_error]
    rfl
  | some segments =>
    rw [hgoal, StepOutPost] at hpost
    obtain ⟨s', hs', hholds', hdir'⟩ := hpost
    rw [hs', map_ok, Except.toOption, Option.map_some, text_row sep ending base segments s' hholds']
    by_cases hne : segments = []
    · rw [hne, remainder_nil, remainder_nil]
    · rw [hdir', h.marked_eq sep base raw row s segments hgoal hne]

/-! ## A path that ends inside its prefix -/

theorem scanFrom_done (step : Scan → Except EditError Scan) (pos : Int) (s : Scan)
    (h : s.size ≤ pos) : s.scanFrom step pos = .ok { s with pos } := by
  unfold scanFrom
  rw [Int.toNat_eq_zero.mpr (by omega), run, if_pos h]

/-- Behind `C:` there is only the separator that the edit has put there, and no scan takes it. -/
theorem scans_unclosed (sep : Separator) (base : Text) (s : Scan) (hne : base ≠ [])
    (hends : base.getLast? ≠ some sep.unit) (hholds : s.Holds (base ++ [sep.unit])) :
    ∃ s', scans sep base.length s = .ok s' ∧ s'.Holds (base ++ [sep.unit]) ∧
      s'.isDirectory = s.isDirectory := by
  obtain ⟨init, c, rfl⟩ := (List.eq_nil_or_concat' base).resolve_left hne
  have hc : (c == sep.unit) = false := by
    rw [beq_eq_false_iff_ne]
    exact fun h => hends (by rw [List.getLast?_concat, h])
  have hlen : (init ++ [c]).length = init.length + 1 := List.length_append
  have hsize := hholds.size_eq
  rw [List.length_append, List.length_singleton] at hsize
  have hsep : s.buffer.holds (init ++ [c]).length sep.unit = .ok true := by
    rw [holds_at s (init ++ [c]) sep.unit [] _ _ _ hholds rfl rfl, beq_self_eq_true]
  have hback : s.buffer.holds ((init ++ [c]).length - 1) sep.unit = .ok false := by
    rw [holds_at s init c [sep.unit] _ _ _ hholds (by simp) (by omega), hc]
  have hsqueeze : s.scanFrom (squeeze sep) (max ((init ++ [c]).length : Int) 1) =
      .ok { s with pos := (init ++ [c]).length + 1 } := by
    have hfuel : (s.size - (init ++ [c]).length).toNat = 1 := by omega
    rw [Int.max_eq_left (by omega), scanFrom, hfuel, run, if_neg (by simp only; omega),
      squeeze_single sep { s with pos := (init ++ [c]).length } hsep hback]
    exact if_pos (by simp only [advance]; omega)
  unfold scans
  rw [hsqueeze, ok_bind, scanFrom_done _ _ _ (by simp only; omega), ok_bind]
  exact ⟨_, scanFrom_done _ _ _ (by simp only; omega), hholds.at_pos s _ _, rfl⟩

theorem text_unclosed (sep : Separator) (ending : Ending) (base : Text) (s : Scan)
    (hholds : s.Holds (base ++ [sep.unit])) (hdir : s.isDirectory = false) :
    s.text ending base.length = base := by
  obtain ⟨hsize, -, tail, htail⟩ := hholds
  rw [List.length_append, List.length_singleton] at hsize
  have hlast : (s.size - 1).toNat = base.length := by omega
  unfold text
  rw [if_neg (by rw [hdir]; simp; omega), hlast, ← htail, List.append_assoc, List.take_left]

/-! ## The whole edit -/

theorem anchor_length (sep : Separator) (path : Text) (p : Prefix) (h : Prefix.Form path p) :
    (Segments.anchor sep p.length path).length = p.length := by
  rcases Prefix.form_length path p h with hle | ⟨heq, -⟩
  · rw [anchor_of_le sep p.length path hle, withSeparator_length, List.length_take_of_le hle]
  · rw [anchor_of_lt sep p.length path (by omega), List.length_append, withSeparator_length,
      List.length_singleton, heq]

theorem edit_eq_scans (sep : Separator) (ending : Ending) (start : Nat) (path : Text) (s : Scan)
    (h : ofPath sep path = .ok s) :
    edit sep ending start path = (scans sep start s).map (text ending start) := by
  unfold edit scans
  rw [h, ok_bind]
  cases s.scanFrom (squeeze sep) (max start 1) with
  | error e => rfl
  | ok s =>
    rw [ok_bind, ok_bind]
    cases s.scanFrom (dropDot sep start) (start + 1) with
    | error e => rfl
    | ok s =>
      rw [ok_bind, ok_bind]
      cases s.scanFrom (stepOut sep start) (start + 2) with
      | error e => rfl
      | ok s => rfl

theorem edit_of_opening (sep : Separator) (ending : Ending) (path : Text) (p : Prefix)
    (h : Prefix.Form path p) (s : Scan) (hs : ofPath sep path = .ok s) (row : List Text)
    (hrow : Opening sep (Segments.anchor sep p.length path)
      ((path.drop p.length).splitOnP Separator.isUnit) row s) :
    (edit sep ending p.length path).toOption = Segments.normalize? sep ending path := by
  have hlength := (Prefix.length?_eq_some_iff_form path p.length).mpr ⟨p.kind, h⟩
  have htext := text_scans sep ending _ _ row s hrow
  rw [anchor_length sep path p h] at htext
  rw [edit_eq_scans sep ending p.length path s hs, htext, normalize?_eq, hlength, Option.bind_some]

theorem edit_of_unclosed (sep : Separator) (ending : Ending) (path : Text) (p : Prefix)
    (hne : path ≠ []) (h : Prefix.Form path p) (s : Scan) (hs : ofPath sep path = .ok s)
    (hrest : path.drop p.length = []) (hle : p.length ≤ path.length)
    (hends : path.endsWithSeparator = false) (hdir : s.isDirectory = false)
    (hholds : s.Holds (path.withSeparator sep ++ [sep.unit])) :
    (edit sep ending p.length path).toOption = Segments.normalize? sep ending path := by
  have hlength := (Prefix.length?_eq_some_iff_form path p.length).mpr ⟨p.kind, h⟩
  have hanchor := withSeparator_eq_anchor sep p.length path hle
  rw [hrest, show withSeparator [] sep = [] from rfl, List.append_nil] at hanchor
  obtain ⟨s', hs', hholds', hdir'⟩ := scans_unclosed sep (path.withSeparator sep) s
    (fun h => hne (List.map_eq_nil_iff.mp h)) (by rw [Ne, withSeparator_getLast?, hends]; simp) hholds
  have htext := text_unclosed sep ending _ s' hholds' (by rw [hdir', hdir])
  rw [hanchor, anchor_length sep path p h] at hs' htext
  rw [edit_eq_scans sep ending p.length path s hs, hs', map_ok, htext, normalize?_eq, hlength,
    Option.bind_some, hrest, List.splitOnP_nil]
  simp [resolve, step, isEmptyOrDot, remainder_nil, Except.toOption]

theorem edit_eq_normalize? (sep : Separator) (ending : Ending) (path : Text) (p : Prefix)
    (hne : path ≠ []) (h : Prefix.Form path p) :
    (edit sep ending p.length path).toOption = Segments.normalize? sep ending path := by
  obtain ⟨s, hs, hdir, hholds⟩ := ofPath_spec sep path hne
  rcases Prefix.form_length path p h with hle | ⟨heq, -, hfree⟩
  · by_cases hrest : path.drop p.length = []
    · cases hends : path.endsWithSeparator with
      | true =>
        have hopening := opening_whole sep p.length path s hle hrest hends hholds
        exact edit_of_opening sep ending path p h s hs [] hopening
      | false =>
        -- A bare drive: the path is all prefix, and nothing closes it.
        rw [hends] at hdir hholds
        exact edit_of_unclosed sep ending path p hne h s hs hrest hle hends hdir hholds
    · obtain ⟨row, hopening⟩ := opening_rest sep p.length path s (by simpa using hrest)
        (Prefix.form_boundary path p h hle) hdir hholds
      exact edit_of_opening sep ending path p h s hs row hopening
  · have hends : path.endsWithSeparator = false := by
      unfold endsWithSeparator
      cases hlast : path.getLast? with
      | none => rfl
      | some u => exact hfree u (List.mem_of_getLast? hlast)
    have hopening := opening_virtual sep p.length path s (by omega) hends hholds
    exact edit_of_opening sep ending path p h s hs [] hopening

end LexicalPath.Scan

namespace LexicalPath.Path

open Text

theorem normalize_of_not_nul (sep : Separator) (ending : Ending) (path : Text)
    (h : CodeUnit.nul ∉ path) :
    normalize sep ending path = .ok (Segments.normalize? sep ending path) := by
  unfold normalize
  rw [clean_of_not_nul path h, ok_bind]
  cases hpath : path.isEmpty with
  | true =>
    obtain rfl : path = [] := by simpa using hpath
    cases ending <;> cases sep <;> rfl
  | false =>
    have hne : path ≠ [] := by simpa using hpath
    cases hlength : Prefix.length? path with
    | none =>
      unfold Segments.normalize?
      rw [hlength]
      rfl
    | some n =>
      obtain ⟨kind, hform⟩ := (Prefix.length?_eq_some_iff_form path n).mp hlength
      have hedit := Scan.edit_eq_normalize? sep ending path ⟨kind, n⟩ hne hform
      rw [← hedit]
      rfl

/-- **Normal forms.** A path with a NUL is refused. Every other path has the normal form of its
segments, taken one after the other, and none if its prefix is invalid or a step leads out of the
place that it starts from. -/
theorem normalize_eq_segments (sep : Separator) (ending : Ending) (path : Text) :
    normalize sep ending path =
      if CodeUnit.nul ∈ path then .error .nulUnit
      else .ok (Segments.normalize? sep ending path) := by
  by_cases h : CodeUnit.nul ∈ path
  · unfold normalize
    rw [if_pos h, clean_of_nul path h]
    rfl
  · rw [if_neg h]
    exact normalize_of_not_nul sep ending path h

/-! ## Results -/

theorem normalize_eq_some_iff (sep : Separator) (ending : Ending) (path r : Text) :
    normalize sep ending path = .ok (some r) ↔
      CodeUnit.nul ∉ path ∧ ∃ start segments, Prefix.length? path = some start ∧
        Segments.resolve [] ((path.drop start).splitOnP Separator.isUnit) = some segments ∧
        r = Segments.anchor sep start path ++ Segments.remainder sep ending segments
          (((path.drop start).splitOnP Separator.isUnit).getLast?.any Segments.isDirectoryMark) := by
  by_cases hnul : CodeUnit.nul ∈ path
  · unfold normalize
    rw [clean_of_nul path hnul]
    constructor
    · intro h
      cases h
    · rintro ⟨h, -⟩
      exact absurd hnul h
  · rw [normalize_of_not_nul sep ending path hnul, Except.ok.injEq, Segments.normalize?_eq,
      Option.bind_eq_some_iff]
    simp only [Option.map_eq_some_iff, hnul, not_false_eq_true, true_and]
    constructor
    · rintro ⟨start, hstart, segments, hsegments, hr⟩
      exact ⟨start, segments, hstart, hsegments, hr.symm⟩
    · rintro ⟨start, segments, hstart, hsegments, hr⟩
      exact ⟨start, hstart, segments, hsegments, hr.symm⟩

end LexicalPath.Path
