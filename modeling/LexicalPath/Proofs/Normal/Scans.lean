import LexicalPath.Proofs.Normal.Cursor
import Mathlib.Data.List.Basic

/-!
# Scans that take out idle segments

The first scan takes out the empty segments of a row, and the second one the `.` segments.
-/

namespace LexicalPath.Scan

open Text Segments

/-- Whether the last segment of the row is `mark`. -/
def endsIn (mark : Text) (row : List Text) : Bool := row.getLast?.any (· == mark)

theorem endsIn_cons_other (mark seg : Text) (row : List Text) (h : seg ≠ mark) :
    endsIn mark (seg :: row) = endsIn mark row := by
  unfold endsIn
  cases row with
  | nil => simp [h]
  | cons x row => simp

theorem endsIn_cons_mark (mark : Text) (row : List Text) :
    endsIn mark (mark :: row) = (decide (row = []) || endsIn mark row) := by
  unfold endsIn
  cases row with
  | nil => simp
  | cons x row => simp

theorem separator_bne (u : CodeUnit) (sep : Separator) (h : Separator.isUnit u = false) :
    (u == sep.unit) = false := by
  rw [beq_eq_false_iff_ne]
  rintro rfl
  rw [sep.isUnit_unit] at h
  cases h

section

variable (sep : Separator) (start : Int) (s : Scan)

/-! ## Adjoining separators -/

theorem squeeze_inside (h : s.buffer.holds s.pos sep.unit = .ok false) :
    squeeze sep s = .ok s.advance := by
  unfold squeeze
  simp [h]

theorem squeeze_single (h : s.buffer.holds s.pos sep.unit = .ok true)
    (h1 : s.buffer.holds (s.pos - 1) sep.unit = .ok false) : squeeze sep s = .ok s.advance := by
  unfold squeeze
  simp [h, h1]

theorem squeeze_double (b : Buffer) (h : s.buffer.holds s.pos sep.unit = .ok true)
    (h1 : s.buffer.holds (s.pos - 1) sep.unit = .ok true)
    (hb : s.buffer.move s.pos (s.pos - 1) (s.size - s.pos) = .ok b) :
    squeeze sep s = .ok { s with buffer := b, size := s.size - 1 } := by
  unfold squeeze
  simp [h, h1, hb]

/-! ## Dot segments -/

theorem dropDot_inside (h : s.buffer.holds s.pos sep.unit = .ok false) :
    dropDot sep start s = .ok s.advance := by
  unfold dropDot atDot
  simp [h]

theorem atDot_eq (b1 b2 : Bool) (h : s.buffer.holds s.pos sep.unit = .ok true)
    (h1 : s.buffer.holds (s.pos - 1) CodeUnit.dot = .ok b1)
    (h2 : s.pos ≠ start + 1 → s.buffer.holds (s.pos - 2) sep.unit = .ok b2) :
    s.atDot sep start = .ok (b1 && (decide (s.pos = start + 1) || b2)) := by
  unfold atDot
  by_cases hpos : s.pos = start + 1
  · cases b1 <;> simp [h, h1, if_pos hpos, decide_eq_true hpos]
  · cases b1 <;> simp [h, h1, h2 hpos, hpos]

theorem dropDot_other (h : s.atDot sep start = .ok false) : dropDot sep start s = .ok s.advance := by
  unfold dropDot
  simp [h]

theorem dropDot_dot (b : Buffer) (h : s.atDot sep start = .ok true)
    (hb : s.buffer.move (s.pos + 1) (s.pos - 1) (s.size - s.pos) = .ok b) :
    dropDot sep start s = .ok { s with
      buffer := b, size := s.size - 2, isDirectory := s.isDirectory || s.pos = s.size - 1 } := by
  unfold dropDot
  simp [h, hb]

end

/-! ## The empty segments -/

/-- What the first scan keeps: the text in front of the cursor ends with a separator, so that an
empty segment leaves two of them side by side. -/
structure SqueezeInv (sep : Separator) (base : Text) (goal : List Text) (flag : Bool)
    (kept todo : List Text) (isDirectory : Bool) : Prop where
  free : ∀ seg ∈ todo, SeparatorFree seg
  opened : (rowText sep base kept).getLast? = some sep.unit ∨ todo.head? ≠ some []
  goal_eq : kept ++ todo.filter (!·.isEmpty) = goal
  flag_eq : isDirectory = flag

theorem squeeze_end (sep : Separator) (base : Text) (goal : List Text) (flag : Bool) (s : Scan)
    (kept : List Text) (seg : Text) (todo : List Text)
    (hcur : Cursor sep base kept (seg :: todo) s)
    (hpos : s.pos = (rowText sep base kept).length + seg.length)
    (hinv : SqueezeInv sep base goal flag kept (seg :: todo) s.isDirectory) :
    ∃ s' kept' todo', squeeze sep s = .ok s' ∧ Cursor sep base kept' todo' s' ∧
      SqueezeInv sep base goal flag kept' todo' s'.isDirectory ∧
      s'.size - s'.pos < s.size - s.pos := by
  obtain ⟨hfree, hopened, hgoal, hflag⟩ := hinv
  have hsep := hcur.at_separator sep base kept todo seg s hpos
  have hfree' : ∀ x ∈ todo, SeparatorFree x := fun x hx => hfree x (List.mem_cons_of_mem seg hx)
  rcases List.eq_nil_or_concat' seg with rfl | ⟨init, c, rfl⟩
  · -- An empty segment: the text in front of it ends with a separator too.
    have hlast : (rowText sep base kept).getLast? = some sep.unit := by
      rcases hopened with h | h
      · exact h
      · exact absurd rfl h
    obtain ⟨front, hfront⟩ := List.getLast?_eq_some_iff.mp hlast
    have hsize := hcur.size_cons
    have hlen := congrArg List.length hfront
    simp only [List.length_append, List.length_nil, List.length_singleton] at hpos hlen hsize
    have hsep1 : s.buffer.holds (s.pos - 1) sep.unit = .ok true := by
      rw [hcur.look_back sep base kept todo [] s (by simpa using hpos) front sep.unit []
        (by rw [List.append_nil, hfront]) _ (by simp), beq_self_eq_true]
    obtain ⟨b, hb, hholds⟩ := move_closes_gap s front [sep.unit] (sep.unit :: closed sep todo) _
      s.pos (s.pos - 1) (s.size - s.pos) hcur.holds (by rw [rowText_cons, hfront]; simp)
      (by simp; omega) (by omega) (by simp; omega)
    refine ⟨_, kept, todo, squeeze_double sep s b hsep hsep1 hb, ⟨?_, ?_, ?_⟩,
      ⟨hfree', Or.inl hlast, hgoal, hflag⟩, by simp only; omega⟩
    · rw [rowText_append, hfront, List.append_assoc, List.singleton_append]
      exact hholds _ rfl (by simp; omega)
    · simp only
      omega
    · intro x _
      simp only
      omega
  · have hsep1 : s.buffer.holds (s.pos - 1) sep.unit = .ok false := by
      rw [hcur.look_back sep base kept todo _ s hpos (rowText sep base kept ++ init) c [] (by simp) _
        (by simp), separator_bne c sep (hfree _ List.mem_cons_self c (by simp))]
    refine ⟨_, kept ++ [init ++ [c]], todo, squeeze_single sep s hsep hsep1,
      hcur.next sep base kept todo _ s hpos, ⟨hfree', Or.inl ?_, ?_, hflag⟩, ?_⟩
    · rw [rowText_snoc, List.getLast?_concat]
    · rw [← hgoal]
      simp
    · simp only [advance]
      omega

theorem squeeze_start (sep : Separator) (base : Text) (row : List Text) (s : Scan)
    (hholds : s.Holds (rowText sep base row))
    (hopened : base.getLast? = some sep.unit ∨ row.head? ≠ some []) :
    Cursor sep base [] row { s with pos := max (base.length : Int) 1 } := by
  apply Cursor.start sep base row _ s hholds (by omega)
  intro seg hseg
  rcases hopened with h | h
  · have hlen := List.length_pos_iff.mpr (List.ne_nil_of_mem (List.mem_of_getLast? h))
    omega
  · have hlen : 0 < seg.length := List.length_pos_iff.mpr (by rintro rfl; exact h hseg)
    omega

theorem squeeze_row (sep : Separator) (base : Text) (row : List Text) (s : Scan)
    (hholds : s.Holds (rowText sep base row)) (hfree : ∀ seg ∈ row, SeparatorFree seg)
    (hopened : base.getLast? = some sep.unit ∨ row.head? ≠ some []) :
    ∃ s', s.scanFrom (squeeze sep) (max base.length 1) = .ok s' ∧
      s'.Holds (rowText sep base (row.filter (!·.isEmpty))) ∧ s'.isDirectory = s.isDirectory := by
  have hcur := squeeze_start sep base row s hholds hopened
  apply scanFrom_row sep base (squeeze sep)
    (SqueezeInv sep base (row.filter (!·.isEmpty)) s.isDirectory)
    (fun r => ∃ s', r = .ok s' ∧ s'.Holds (rowText sep base (row.filter (!·.isEmpty))) ∧
      s'.isDirectory = s.isDirectory)
    (fun kept todo d hinv => hinv.free) (squeeze_inside sep) _ _ _ s [] row hcur
    ⟨hfree, by rwa [rowText_nil], rfl, rfl⟩
  · intro s' kept hholds hinv
    have hkept := hinv.goal_eq
    rw [List.filter_nil, List.append_nil] at hkept
    exact ⟨s', rfl, hkept ▸ hholds, hinv.flag_eq⟩
  · intro s' kept seg todo hcur hpos hinv
    exact Or.inl (squeeze_end sep base _ _ s' kept seg todo hcur hpos hinv)

/-! ## The dot segments -/

theorem length_le_rowText (sep : Separator) (base : Text) (kept : List Text) :
    base.length ≤ (rowText sep base kept).length := by
  unfold rowText
  simp

theorem rowText_eq_base_or_snoc (sep : Separator) (base : Text) (kept : List Text) :
    kept = [] ∨ ∃ front, rowText sep base kept = front ++ [sep.unit] := by
  rcases List.eq_nil_or_concat' kept with rfl | ⟨init, last, rfl⟩
  · exact Or.inl rfl
  · exact Or.inr ⟨_, rowText_snoc sep base init last⟩

theorem pos_eq_last_iff (sep : Separator) (base : Text) (kept todo : List Text) (seg : Text)
    (s : Scan) (hcur : Cursor sep base kept (seg :: todo) s)
    (hpos : s.pos = (rowText sep base kept).length + seg.length) :
    s.pos = s.size - 1 ↔ todo = [] := by
  have hsize := hcur.size_cons
  cases todo with
  | nil =>
    rw [closed_nil, List.length_nil] at hsize
    simp only [iff_true]
    omega
  | cons x todo =>
    rw [closed_cons, List.length_append, List.length_cons] at hsize
    simp only [reduceCtorEq, iff_false]
    omega

theorem atDot_end (sep : Separator) (base : Text) (s : Scan) (kept : List Text) (seg : Text)
    (todo : List Text) (hcur : Cursor sep base kept (seg :: todo) s)
    (hpos : s.pos = (rowText sep base kept).length + seg.length) (hfree : SeparatorFree seg)
    (hne : seg ≠ []) : s.atDot sep base.length = .ok (seg == [CodeUnit.dot]) := by
  have hsep := hcur.at_separator sep base kept todo seg s hpos
  have hback := hcur.look_back sep base kept todo seg s hpos
  have hbase := length_le_rowText sep base kept
  obtain ⟨init, c, rfl⟩ := (List.eq_nil_or_concat' seg).resolve_left hne
  have h1 := hback (rowText sep base kept ++ init) c [] (by simp) (s.pos - 1) (by simp) CodeUnit.dot
  rcases List.eq_nil_or_concat' init with rfl | ⟨init, d, rfl⟩
  · -- One unit: either the segment comes first, or a separator stands in front of it.
    rw [atDot_eq sep base.length s _ true hsep h1]
    · simp
    · intro hfirst
      rcases rowText_eq_base_or_snoc sep base kept with rfl | ⟨front, hfront⟩
      · exact absurd (by simpa [rowText, closed] using hpos) hfirst
      · rw [hback front sep.unit [c] (by simp [hfront]) _ (by simp), beq_self_eq_true]
  · have h2 := hback (rowText sep base kept ++ init) d [c] (by simp) (s.pos - 2) (by simp) sep.unit
    rw [separator_bne d sep (hfree d (by simp))] at h2
    have hfirst : s.pos ≠ base.length + 1 := by
      simp only [List.length_append, List.length_singleton] at hpos
      omega
    have hother : (init ++ [d] ++ [c] == [CodeUnit.dot]) = false := by
      rw [beq_eq_false_iff_ne]
      exact fun h => by simpa using congrArg List.length h
    rw [atDot_eq sep base.length s _ false hsep h1 (fun _ => h2), hother]
    simp [hfirst]

structure DropDotInv (goal : List Text) (flag : Bool) (kept todo : List Text)
    (isDirectory : Bool) : Prop where
  free : ∀ seg ∈ todo, SeparatorFree seg
  nonempty : ∀ seg ∈ todo, seg ≠ []
  goal_eq : kept ++ todo.filter (· != [CodeUnit.dot]) = goal
  flag_eq : (isDirectory || endsIn [CodeUnit.dot] todo) = flag

theorem dropDot_end (sep : Separator) (base : Text) (goal : List Text) (flag : Bool) (s : Scan)
    (kept : List Text) (seg : Text) (todo : List Text)
    (hcur : Cursor sep base kept (seg :: todo) s)
    (hpos : s.pos = (rowText sep base kept).length + seg.length)
    (hinv : DropDotInv goal flag kept (seg :: todo) s.isDirectory) :
    ∃ s' kept' todo', dropDot sep base.length s = .ok s' ∧ Cursor sep base kept' todo' s' ∧
      DropDotInv goal flag kept' todo' s'.isDirectory ∧ s'.size - s'.pos < s.size - s.pos := by
  obtain ⟨hfree, hnonempty, hgoal, hflag⟩ := hinv
  have hat := atDot_end sep base s kept seg todo hcur hpos (hfree seg List.mem_cons_self)
    (hnonempty seg List.mem_cons_self)
  have hfree' : ∀ x ∈ todo, SeparatorFree x := fun x hx => hfree x (List.mem_cons_of_mem seg hx)
  have hnonempty' : ∀ x ∈ todo, x ≠ [] := fun x hx => hnonempty x (List.mem_cons_of_mem seg hx)
  by_cases hdot : seg = [CodeUnit.dot]
  · subst hdot
    rw [beq_self_eq_true] at hat
    have hsize := hcur.size_cons
    have hlast := pos_eq_last_iff sep base kept todo _ s hcur hpos
    simp only [List.length_singleton] at hpos hsize
    obtain ⟨b, hb, hholds⟩ := move_closes_gap s (rowText sep base kept) [CodeUnit.dot, sep.unit]
      (closed sep todo) _ (s.pos + 1) (s.pos - 1) (s.size - s.pos) hcur.holds
      (by rw [rowText_cons]; simp) (by simp; omega) (by omega) (by omega)
    refine ⟨_, kept, todo, dropDot_dot sep base.length s b hat hb, ⟨?_, ?_, ?_⟩,
      ⟨hfree', hnonempty', by simpa using hgoal, ?_⟩, by simp only; omega⟩
    · rw [rowText_append]
      exact hholds _ rfl (by simp only; omega)
    · simp only
      omega
    · intro x hx
      have hx' := List.length_pos_iff.mpr (hnonempty' x (List.mem_of_mem_head? hx))
      simp only
      omega
    · rw [← hflag, endsIn_cons_mark, ← decide_eq_decide.mpr hlast, Bool.or_assoc]
  · rw [beq_eq_false_iff_ne.mpr hdot] at hat
    refine ⟨_, kept ++ [seg], todo, dropDot_other sep base.length s hat,
      hcur.next sep base kept todo seg s hpos, ⟨hfree', hnonempty', ?_, ?_⟩, ?_⟩
    · rw [← hgoal]
      simp [hdot]
    · rw [← hflag, endsIn_cons_other _ seg todo hdot]
      rfl
    · simp only [advance]
      omega

theorem dropDot_row (sep : Separator) (base : Text) (row : List Text) (s : Scan)
    (hholds : s.Holds (rowText sep base row)) (hfree : ∀ seg ∈ row, SeparatorFree seg)
    (hnonempty : ∀ seg ∈ row, seg ≠ []) :
    ∃ s', s.scanFrom (dropDot sep base.length) (base.length + 1) = .ok s' ∧
      s'.Holds (rowText sep base (row.filter (· != [CodeUnit.dot]))) ∧
      s'.isDirectory = (s.isDirectory || endsIn [CodeUnit.dot] row) := by
  have hcur : Cursor sep base [] row { s with pos := (base.length : Int) + 1 } := by
    apply Cursor.start sep base row _ s hholds (by omega)
    intro seg hseg
    have hlen := List.length_pos_iff.mpr (hnonempty seg (List.mem_of_mem_head? hseg))
    omega
  apply scanFrom_row sep base (dropDot sep base.length)
    (DropDotInv (row.filter (· != [CodeUnit.dot])) (s.isDirectory || endsIn [CodeUnit.dot] row))
    (fun r => ∃ s', r = .ok s' ∧ s'.Holds (rowText sep base (row.filter (· != [CodeUnit.dot]))) ∧
      s'.isDirectory = (s.isDirectory || endsIn [CodeUnit.dot] row))
    (fun kept todo d hinv => hinv.free) (dropDot_inside sep base.length) _ _ _ s [] row hcur
    ⟨hfree, hnonempty, rfl, rfl⟩
  · intro s' kept hholds hinv
    have hkept := hinv.goal_eq
    rw [List.filter_nil, List.append_nil] at hkept
    exact ⟨s', rfl, hkept ▸ hholds, by simpa [endsIn] using hinv.flag_eq⟩
  · intro s' kept seg todo hcur hpos hinv
    exact Or.inl (dropDot_end sep base _ _ s' kept seg todo hcur hpos hinv)

end LexicalPath.Scan
