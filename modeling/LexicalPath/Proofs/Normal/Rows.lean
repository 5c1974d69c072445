import LexicalPath.Normal.Segments
import LexicalPath.Proofs.Separators
import LexicalPath.Proofs.Text.Pieces

/-!
# Rows of segments as texts

Two texts belong to a row of segments: one with a separator behind every segment, which is what an
edit works on, and one with a separator between each two. Splitting gives the row back.
-/

namespace LexicalPath.Segments

open Text

/-- The text of a row, where every segment has a separator behind it. -/
def closed (sep : Separator) (segments : List Text) : Text :=
  segments.flatMap fun s => s ++ [sep.unit]

theorem closed_nil (sep : Separator) : closed sep [] = [] := rfl

theorem closed_cons (sep : Separator) (s : Text) (ss : List Text) :
    closed sep (s :: ss) = s ++ sep.unit :: closed sep ss := by
  unfold closed
  simp

theorem closed_append (sep : Separator) (ss ts : List Text) :
    closed sep (ss ++ ts) = closed sep ss ++ closed sep ts := List.flatMap_append

theorem closed_singleton (sep : Separator) (s : Text) : closed sep [s] = s ++ [sep.unit] := by
  unfold closed
  simp

/-! ## Splitting -/

theorem separatorFree_of_mem_splitOnP (t : Text) :
    ∀ s ∈ t.splitOnP Separator.isUnit, SeparatorFree s :=
  not_of_mem_splitOnP Separator.isUnit t

theorem closed_splitOnP (sep : Separator) (t : Text) :
    closed sep (t.splitOnP Separator.isUnit) = t.withSeparator sep ++ [sep.unit] := by
  induction t with
  | nil => simp [closed_singleton, withSeparator, replaceUnit]
  | cons u t ih =>
    rw [List.splitOnP_cons_eq_if_modifyHead]
    split
    · next hu =>
      rw [closed_cons, ih, withSeparator_cons_separator u t sep hu]
      simp
    · next hu =>
      obtain ⟨first, others, hsplit⟩ :=
        List.exists_cons_of_ne_nil (List.splitOnP_ne_nil Separator.isUnit t)
      rw [hsplit, closed_cons] at ih
      rw [hsplit, List.modifyHead_cons, closed_cons,
        withSeparator_cons_other u t sep (by simpa using hu), List.cons_append, ih, List.cons_append]

theorem splitOnP_append_separator (t : Text) (w : CodeUnit) (hw : Separator.isUnit w = true) :
    (t ++ [w]).splitOnP Separator.isUnit = t.splitOnP Separator.isUnit ++ [[]] := by
  rw [List.splitOnP_append_cons t [] hw, List.splitOnP_nil]

theorem head?_splitOnP (t : Text) (hne : t ≠ []) (h : t.head?.any Separator.isUnit = false) :
    (t.splitOnP Separator.isUnit).head? ≠ some [] := by
  obtain ⟨u, t, rfl⟩ := List.exists_cons_of_ne_nil hne
  obtain ⟨first, others, hsplit⟩ :=
    List.exists_cons_of_ne_nil (List.splitOnP_ne_nil Separator.isUnit t)
  have hu : Separator.isUnit u = false := by simpa using h
  rw [List.splitOnP_cons_eq_if_modifyHead, hu, hsplit]
  simp

theorem getLast?_splitOnP (t : Text) (hne : t ≠ []) (h : t.endsWithSeparator = false) :
    (t.splitOnP Separator.isUnit).getLast? ≠ some [] := by
  intro hlast
  obtain ⟨init, hsplit⟩ := List.getLast?_eq_some_iff.mp hlast
  have hclosed := closed_splitOnP .slash t
  rw [hsplit, closed_append, closed_singleton, List.nil_append, List.append_left_inj] at hclosed
  rcases List.eq_nil_or_concat init with rfl | ⟨init, last, rfl⟩
  · exact hne (List.map_eq_nil_iff.mp hclosed.symm)
  · have hunit : (t.withSeparator .slash).getLast? = some Separator.slash.unit := by
      rw [← hclosed, List.concat_eq_append, closed_append, closed_singleton, ← List.append_assoc,
        List.getLast?_concat]
    rw [withSeparator_getLast?, h] at hunit
    cases hunit

/-! ## Joining -/

theorem join_nil (sep : Separator) : join sep [] = [] := by simp [join]

theorem join_cons_cons (sep : Separator) (s t : Text) (ss : List Text) :
    join sep (s :: t :: ss) = s ++ sep.unit :: join sep (t :: ss) := by
  simp [join, List.intercalate_cons_cons]

theorem join_append_unit (sep : Separator) (segments : List Text) (hne : segments ≠ []) :
    join sep segments ++ [sep.unit] = closed sep segments := by
  induction segments with
  | nil => exact absurd rfl hne
  | cons s ss ih =>
    cases ss with
    | nil => simp [join, closed_singleton]
    | cons t ss =>
      rw [join_cons_cons, closed_cons, ← ih (by simp), List.append_assoc, List.cons_append]

theorem splitOnP_join (sep : Separator) (segments : List Text) (hne : segments ≠ [])
    (hfree : ∀ s ∈ segments, SeparatorFree s) :
    (join sep segments).splitOnP Separator.isUnit = segments := by
  induction segments with
  | nil => exact absurd rfl hne
  | cons s ss ih =>
    have hs := hfree s List.mem_cons_self
    cases ss with
    | nil =>
      rw [join, List.intercalate_singleton]
      exact List.splitOnP_eq_singleton hs
    | cons t ss =>
      rw [join_cons_cons, List.splitOnP_append_cons_of_forall_mem hs _ sep.isUnit_unit,
        ih (by simp) (fun x hx => hfree x (List.mem_cons_of_mem s hx))]

/-! ## Taking the steps -/

theorem resolve_cons_skip (place : List Text) (s : Text) (ss : List Text)
    (h : isEmptyOrDot s = true) : resolve place (s :: ss) = resolve place ss := by
  simp [resolve, step, h]

theorem resolve_cons_push (place : List Text) (s : Text) (ss : List Text)
    (h : isDirectoryMark s = false) : resolve place (s :: ss) = resolve (s :: place) ss := by
  unfold isDirectoryMark at h
  rw [Bool.or_eq_false_iff] at h
  simp [resolve, step, h.1, h.2]

theorem resolve_cons_pop (above : List Text) (last s : Text) (ss : List Text)
    (h : isDotDot s = true) : resolve (last :: above) (s :: ss) = resolve above ss := by
  obtain rfl : s = [CodeUnit.dot, CodeUnit.dot] := by simpa [isDotDot] using h
  simp [resolve, step, isEmptyOrDot, isDotDot]

theorem resolve_cons_above (s : Text) (ss : List Text) (h : isDotDot s = true) :
    resolve [] (s :: ss) = none := by
  obtain rfl : s = [CodeUnit.dot, CodeUnit.dot] := by simpa [isDotDot] using h
  simp [resolve, step, isEmptyOrDot, isDotDot]

theorem resolve_filter (p : Text → Bool) (hp : ∀ s, p s = false → isEmptyOrDot s = true)
    (place ss : List Text) : resolve place (ss.filter p) = resolve place ss := by
  induction ss generalizing place with
  | nil => rfl
  | cons s ss ih =>
    cases h : p s with
    | false =>
      rw [List.filter_cons_of_neg (by simp [h]), resolve_cons_skip place s ss (hp s h), ih]
    | true =>
      rw [List.filter_cons_of_pos h, resolve, resolve]
      congr 1
      funext place'
      exact ih place'

theorem resolve_filter_nonempty (place ss : List Text) :
    resolve place (ss.filter (!·.isEmpty)) = resolve place ss := by
  apply resolve_filter
  intro s hs
  rw [Bool.not_eq_false'] at hs
  simp [isEmptyOrDot, hs]

theorem resolve_concat_nil (place ss : List Text) :
    resolve place (ss ++ [[]]) = resolve place ss := by
  rw [← resolve_filter_nonempty place (ss ++ [[]]), List.filter_append,
    ← resolve_filter_nonempty place ss]
  simp

theorem resolve_of_down (place ss : List Text) (h : ∀ s ∈ ss, isDirectoryMark s = false) :
    resolve place ss = some (place.reverse ++ ss) := by
  induction ss generalizing place with
  | nil => simp [resolve]
  | cons s ss ih =>
    rw [resolve_cons_push place s ss (h s List.mem_cons_self),
      ih (s :: place) (fun x hx => h x (List.mem_cons_of_mem s hx))]
    simp

theorem step_forall (P : Text → Prop) (place place' : List Text) (s : Text)
    (h : step place s = some place') (hplace : ∀ x ∈ place, P x)
    (hs : isDirectoryMark s = false → P s) : ∀ x ∈ place', P x := by
  unfold step at h
  split at h
  · obtain rfl := Option.some.inj h
    exact hplace
  · next hempty =>
    split at h
    · cases place with
      | nil => cases h
      | cons last above =>
        obtain rfl := Option.some.inj h
        exact fun x hx => hplace x (List.mem_cons_of_mem last hx)
    · next hdots =>
      obtain rfl := Option.some.inj h
      intro x hx
      rcases List.mem_cons.mp hx with rfl | hx
      · exact hs (by simp [isDirectoryMark, hempty, hdots])
      · exact hplace x hx

theorem resolve_forall (P : Text → Prop) (place ss segments : List Text)
    (h : resolve place ss = some segments) (hplace : ∀ x ∈ place, P x)
    (hss : ∀ s ∈ ss, isDirectoryMark s = false → P s) : ∀ x ∈ segments, P x := by
  induction ss generalizing place with
  | nil =>
    obtain rfl := Option.some.inj h
    simpa using hplace
  | cons s ss ih =>
    rw [resolve, Option.bind_eq_some_iff] at h
    obtain ⟨place', hstep, hrest⟩ := h
    exact ih place' hrest
      (step_forall P place place' s hstep hplace (hss s List.mem_cons_self))
      (fun x hx => hss x (List.mem_cons_of_mem s hx))

/-! ## The parts of a result -/

/-- The segments that remain of a path. -/
def remaining? (path : Text) : Option (List Text) :=
  (Prefix.length? path).bind fun start => resolve [] ((path.drop start).splitOnP Separator.isUnit)

/-- The text behind the prefix of a normal path. -/
def remainder (sep : Separator) (ending : Ending) (segments : List Text) (isDirectory : Bool) : Text :=
  join sep segments ++
    if ending = .kept ∧ segments ≠ [] ∧ isDirectory = true then [sep.unit] else []

theorem normalize?_eq (sep : Separator) (ending : Ending) (path : Text) :
    normalize? sep ending path = (Prefix.length? path).bind fun start =>
      (resolve [] ((path.drop start).splitOnP Separator.isUnit)).map fun segments =>
        anchor sep start path ++ remainder sep ending segments
          (((path.drop start).splitOnP Separator.isUnit).getLast?.any isDirectoryMark) := by
  simp only [normalize?, remainder, List.append_assoc]

theorem remainder_nil (sep : Separator) (ending : Ending) (isDirectory : Bool) :
    remainder sep ending [] isDirectory = [] := by
  unfold remainder
  simp [join_nil]

theorem anchor_of_le (sep : Separator) (start : Nat) (path : Text) (h : start ≤ path.length) :
    anchor sep start path = Text.withSeparator (path.take start) sep := by
  unfold anchor
  rw [if_neg (Nat.not_lt.mpr h), List.append_nil]

theorem anchor_of_lt (sep : Separator) (start : Nat) (path : Text) (h : path.length < start) :
    anchor sep start path = path.withSeparator sep ++ [sep.unit] := by
  unfold anchor
  rw [if_pos h, List.take_of_length_le (Nat.le_of_lt h)]

theorem withSeparator_eq_anchor (sep : Separator) (start : Nat) (path : Text)
    (h : start ≤ path.length) :
    path.withSeparator sep = anchor sep start path ++ Text.withSeparator (path.drop start) sep := by
  rw [anchor_of_le sep start path h, ← withSeparator_append, List.take_append_drop]

theorem remaining_segments (rest : Text) (segments : List Text)
    (h : resolve [] (rest.splitOnP Separator.isUnit) = some segments) :
    ∀ s ∈ segments, SeparatorFree s ∧ isDirectoryMark s = false :=
  resolve_forall _ [] _ segments h (by simp)
    (fun s hs hmark => ⟨separatorFree_of_mem_splitOnP rest s hs, hmark⟩)

end LexicalPath.Segments
