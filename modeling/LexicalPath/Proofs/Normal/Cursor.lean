import LexicalPath.Normal.Edit
import LexicalPath.Proofs.Failure
import LexicalPath.Proofs.Normal.Rows

/-!
# Scans over a row of segments

A scan holds a text in the front of its buffer, with room for one more unit. Between two steps it
stands in a segment: in front of it are the segments that the scan keeps, behind it those that it
still has to read.
-/

namespace LexicalPath.Scan

open Text Segments

/-! ## The text of a scan -/

/-- The units in use are `t`, and the buffer has at least one more unit. -/
structure Holds (s : Scan) (t : Text) : Prop where
  size_eq : s.size = t.length
  room : t.length < s.buffer.size
  contents : t <+: s.buffer.toList

theorem Holds.at_pos (s : Scan) (t : Text) (h : s.Holds t) (pos : Int) : { s with pos }.Holds t :=
  ⟨h.size_eq, h.room, h.contents⟩

theorem read_at (b : Buffer) (front : Text) (u : CodeUnit) (back : Text) (i : Int)
    (h : front ++ u :: back <+: b.toList) (hi : i = front.length) : b.read i = .ok u := by
  obtain ⟨tail, htail⟩ := h
  have hget : b[front.length]? = some u := by
    rw [← Array.getElem?_toList, ← htail]
    simp
  subst hi
  simp [Buffer.read, hget]

theorem holds_at (s : Scan) (front : Text) (u : CodeUnit) (back t : Text) (i : Int) (v : CodeUnit)
    (h : s.Holds t) (ht : t = front ++ u :: back) (hi : i = front.length) :
    s.buffer.holds i v = .ok (u == v) := by
  subst ht
  simp [Buffer.holds, read_at s.buffer front u back i h.contents hi, Except.map]

theorem move_toList (b : Buffer) (source target count : Nat) (hsource : source + count ≤ b.size)
    (htarget : target + count ≤ b.size) :
    ∃ b', b.move source target count = .ok b' ∧ b'.toList =
      b.toList.take target ++ (b.toList.drop source).take count ++ b.toList.drop (target + count) := by
  refine ⟨_, if_pos (by omega), ?_⟩
  have hend : ((target : Int) + count).toNat = target + count := by omega
  have hcount : ((source : Int) + count).toNat - source = count := by omega
  simp only [Array.toList_append, Array.toList_extract, List.extract_eq_take_drop, Int.toNat_natCast,
    hend, hcount, Nat.sub_zero, List.drop_zero, List.append_cancel_left_eq]
  exact List.take_of_length_le (by simp)

/-- A move to the left closes the gap in front of the units that it moves. It may take along the
unit behind the text. -/
theorem move_closes_gap (s : Scan) (front gap back t : Text) (source target count : Int)
    (h : s.Holds t) (ht : t = front ++ (gap ++ back))
    (hsource : source = front.length + gap.length) (htarget : target = front.length)
    (hcount : count = back.length ∨ count = back.length + 1) :
    ∃ b, s.buffer.move source target count = .ok b ∧
      ∀ s' : Scan, s'.buffer = b → s'.size = front.length + back.length →
        s'.Holds (front ++ back) := by
  subst ht
  obtain ⟨-, hroom, tail, htail⟩ := h
  simp only [List.length_append] at hroom
  obtain ⟨k, rfl⟩ := Int.eq_ofNat_of_zero_le (show 0 ≤ count by omega)
  obtain ⟨b, hb, hlist⟩ := move_toList s.buffer (front.length + gap.length) front.length k
    (by omega) (by omega)
  rw [hsource, htarget, ← Int.natCast_add]
  refine ⟨b, hb, ?_⟩
  rintro s' rfl hsize
  refine ⟨by rw [hsize, List.length_append]; omega, ?_, ?_⟩
  · rw [Buffer.size_of_move hb, List.length_append]
    omega
  · have hmoved : (s.buffer.toList.drop (front.length + gap.length)).take k =
        back ++ tail.take (k - back.length) := by
      rw [← htail, List.append_assoc, ← List.drop_drop, List.drop_left, List.append_assoc,
        List.drop_left, List.take_append, List.take_of_length_le (by omega)]
    have hfront : s.buffer.toList.take front.length = front := by
      rw [← htail, List.append_assoc, List.take_left]
    rw [hlist, hfront, hmoved, ← List.append_assoc, List.append_assoc (front ++ back)]
    exact List.prefix_append _ _

/-! ## Running a scan -/

/-- The rule for a scan: an invariant that every step keeps, while the end comes nearer, holds where
the scan ends. A step may also end the edit. -/
theorem run_spec (step : Scan → Except EditError Scan) (Inv : Scan → Prop)
    (Post : Except EditError Scan → Prop)
    (hdone : ∀ s, Inv s → s.size ≤ s.pos → Post (.ok s))
    (hstep : ∀ s, Inv s → s.pos < s.size →
      (∃ s', step s = .ok s' ∧ Inv s' ∧ s'.size - s'.pos < s.size - s.pos) ∨
        ∃ e, step s = .error e ∧ Post (.error e))
    (n : Nat) (s : Scan) (hinv : Inv s) (hn : s.size - s.pos ≤ n) : Post (run step n s) := by
  induction n generalizing s with
  | zero =>
    have hend : s.size ≤ s.pos := by omega
    rw [run, if_pos hend]
    exact hdone s hinv hend
  | succ n ih =>
    rw [run]
    split
    · next hend => exact hdone s hinv hend
    · next hend =>
      rcases hstep s hinv (by omega) with ⟨s', hs', hinv', hless⟩ | ⟨e, he, hpost⟩
      · rw [hs']
        exact ih s' hinv' (by omega)
      · rw [he]
        exact hpost

theorem scanFrom_spec (step : Scan → Except EditError Scan) (Inv : Scan → Prop)
    (Post : Except EditError Scan → Prop) (pos : Int) (s : Scan) (hinv : Inv { s with pos })
    (hdone : ∀ s, Inv s → s.size ≤ s.pos → Post (.ok s))
    (hstep : ∀ s, Inv s → s.pos < s.size →
      (∃ s', step s = .ok s' ∧ Inv s' ∧ s'.size - s'.pos < s.size - s.pos) ∨
        ∃ e, step s = .error e ∧ Post (.error e)) : Post (s.scanFrom step pos) :=
  run_spec step Inv Post hdone hstep _ _ hinv (Int.self_le_toNat _)

/-! ## Standing in a segment -/

/-- A row of segments behind a base. -/
def rowText (sep : Separator) (base : Text) (row : List Text) : Text := base ++ closed sep row

theorem rowText_nil (sep : Separator) (base : Text) : rowText sep base [] = base :=
  List.append_nil base

theorem rowText_append (sep : Separator) (base : Text) (kept todo : List Text) :
    rowText sep base (kept ++ todo) = rowText sep base kept ++ closed sep todo := by
  unfold rowText
  rw [closed_append, List.append_assoc]

theorem rowText_cons (sep : Separator) (base : Text) (kept : List Text) (seg : Text)
    (todo : List Text) :
    rowText sep base (kept ++ seg :: todo) =
      rowText sep base kept ++ (seg ++ sep.unit :: closed sep todo) := by
  rw [rowText_append, closed_cons]

theorem rowText_snoc (sep : Separator) (base : Text) (kept : List Text) (seg : Text) :
    rowText sep base (kept ++ [seg]) = rowText sep base kept ++ seg ++ [sep.unit] := by
  rw [rowText_append, closed_singleton, List.append_assoc]

/-- The scan has passed the segments `kept` and stands in the first segment of `todo`, at the latest
at the separator behind it. -/
structure Cursor (sep : Separator) (base : Text) (kept todo : List Text) (s : Scan) : Prop where
  holds : s.Holds (rowText sep base (kept ++ todo))
  lower : (rowText sep base kept).length ≤ s.pos
  upper : ∀ seg ∈ todo.head?, s.pos ≤ (rowText sep base kept).length + seg.length

theorem Cursor.start (sep : Separator) (base : Text) (row : List Text) (pos : Int) (s : Scan)
    (hholds : s.Holds (rowText sep base row)) (hlower : base.length ≤ pos)
    (hupper : ∀ seg ∈ row.head?, pos ≤ base.length + seg.length) :
    Cursor sep base [] row { s with pos } := by
  refine ⟨hholds.at_pos s _ _, ?_, ?_⟩
  · rw [rowText_nil]
    exact hlower
  · rw [rowText_nil]
    exact hupper

section

variable (sep : Separator) (base : Text) (kept todo : List Text) (seg : Text) (s : Scan)

theorem Cursor.size_eq (h : Cursor sep base kept todo s) :
    s.size = (rowText sep base kept).length + (closed sep todo).length := by
  rw [h.holds.size_eq, rowText_append, List.length_append, Int.natCast_add]

theorem Cursor.size_cons (h : Cursor sep base kept (seg :: todo) s) :
    s.size = (rowText sep base kept).length + seg.length + 1 + (closed sep todo).length := by
  rw [h.size_eq, closed_cons, List.length_append, List.length_cons]
  omega

theorem Cursor.done (h : Cursor sep base kept todo s) (hend : s.size ≤ s.pos) : todo = [] := by
  cases todo with
  | nil => rfl
  | cons seg todo =>
    have hsize := h.size_cons
    have hpos := h.upper seg (by simp)
    omega

theorem Cursor.inside (h : Cursor sep base kept (seg :: todo) s) (hfree : SeparatorFree seg)
    (hpos : s.pos < (rowText sep base kept).length + seg.length) :
    s.buffer.holds s.pos sep.unit = .ok false ∧ Cursor sep base kept (seg :: todo) s.advance := by
  obtain ⟨hholds, hlower, hupper⟩ := h
  refine ⟨?_, hholds.at_pos s _ _, by simp only [advance]; omega, ?_⟩
  · obtain ⟨a, u, c, rfl, ha⟩ : ∃ a u c, seg = a ++ u :: c ∧
        s.pos = (rowText sep base kept).length + a.length := by
      have hlt : (s.pos - (rowText sep base kept).length).toNat < seg.length := by omega
      refine ⟨_, _, _, (List.take_append_drop _ seg).symm.trans
        (congrArg _ (List.drop_eq_getElem_cons hlt)), ?_⟩
      rw [List.length_take]
      omega
    have hunit : (u == sep.unit) = false := by
      have hu := hfree u (by simp)
      rw [beq_eq_false_iff_ne]
      rintro rfl
      rw [sep.isUnit_unit] at hu
      cases hu
    rw [← hunit]
    apply holds_at s (rowText sep base kept ++ a) u (c ++ sep.unit :: closed sep todo) _ _ _ hholds
    · rw [rowText_cons]
      simp
    · rw [ha, List.length_append, Int.natCast_add]
  · intro x hx
    obtain rfl : seg = x := by simpa using hx
    simp only [advance]
    omega

theorem Cursor.at_separator (h : Cursor sep base kept (seg :: todo) s)
    (hpos : s.pos = (rowText sep base kept).length + seg.length) :
    s.buffer.holds s.pos sep.unit = .ok true := by
  rw [holds_at s (rowText sep base kept ++ seg) sep.unit (closed sep todo) _ _ _ h.holds,
    beq_self_eq_true]
  · rw [rowText_cons, List.append_assoc]
  · rw [hpos, List.length_append, Int.natCast_add]

theorem Cursor.next (h : Cursor sep base kept (seg :: todo) s)
    (hpos : s.pos = (rowText sep base kept).length + seg.length) :
    Cursor sep base (kept ++ [seg]) todo s.advance := by
  have hlen : ((rowText sep base (kept ++ [seg])).length : Int) = s.pos + 1 := by
    rw [rowText_snoc, List.length_append, List.length_append, hpos]
    rfl
  refine ⟨?_, by rw [hlen]; exact Int.le_refl _, ?_⟩
  · rw [List.append_assoc]
    exact h.holds.at_pos s _ _
  · intro x _
    rw [hlen]
    simp only [advance]
    omega

theorem Cursor.look_back (h : Cursor sep base kept (seg :: todo) s)
    (hpos : s.pos = (rowText sep base kept).length + seg.length) (front : Text) (u : CodeUnit)
    (mid : Text) (hsplit : rowText sep base kept ++ seg = front ++ u :: mid) (i : Int)
    (hi : i = s.pos - (mid.length + 1)) (v : CodeUnit) :
    s.buffer.holds i v = .ok (u == v) := by
  have hlen := congrArg List.length hsplit
  simp only [List.length_append, List.length_cons] at hlen
  apply holds_at s front u (mid ++ sep.unit :: closed sep todo) _ i v h.holds
  · rw [rowText_cons, ← List.append_assoc, hsplit]
    simp
  · omega

end

/-- The rule for a scan over a row: it goes on wherever there is no separator, so only the steps at
the end of a segment count. -/
theorem scanFrom_row (sep : Separator) (base : Text) (step : Scan → Except EditError Scan)
    (Inv : List Text → List Text → Bool → Prop) (Post : Except EditError Scan → Prop)
    (hfree : ∀ kept todo d, Inv kept todo d → ∀ seg ∈ todo, SeparatorFree seg)
    (hskip : ∀ s : Scan, s.buffer.holds s.pos sep.unit = .ok false → step s = .ok s.advance)
    (hdone : ∀ s kept, s.Holds (rowText sep base kept) → Inv kept [] s.isDirectory → Post (.ok s))
    (hend : ∀ s kept seg todo, Cursor sep base kept (seg :: todo) s →
      s.pos = (rowText sep base kept).length + seg.length → Inv kept (seg :: todo) s.isDirectory →
      (∃ s' kept' todo', step s = .ok s' ∧ Cursor sep base kept' todo' s' ∧
        Inv kept' todo' s'.isDirectory ∧ s'.size - s'.pos < s.size - s.pos) ∨
        ∃ e, step s = .error e ∧ Post (.error e))
    (pos : Int) (s : Scan) (kept todo : List Text) (hcur : Cursor sep base kept todo { s with pos })
    (hinv : Inv kept todo s.isDirectory) : Post (s.scanFrom step pos) := by
  apply scanFrom_spec step
    (fun s => ∃ kept todo, Cursor sep base kept todo s ∧ Inv kept todo s.isDirectory) Post pos s
    ⟨kept, todo, hcur, hinv⟩
  · rintro s ⟨kept, todo, hcur, hinv⟩ hsize
    obtain rfl := hcur.done sep base kept todo s hsize
    have hholds := hcur.holds
    rw [List.append_nil] at hholds
    exact hdone s kept hholds hinv
  · rintro s ⟨kept, todo, hcur, hinv⟩ hlt
    cases todo with
    | nil =>
      have hsize := hcur.size_eq
      have hlower := hcur.lower
      rw [closed_nil, List.length_nil] at hsize
      omega
    | cons seg todo =>
      have hupper := hcur.upper seg (by simp)
      rcases (by omega : s.pos < (rowText sep base kept).length + seg.length ∨
        s.pos = (rowText sep base kept).length + seg.length) with hpos | hpos
      · obtain ⟨hnone, hnext⟩ := hcur.inside sep base kept todo seg s
          (hfree kept _ _ hinv seg List.mem_cons_self) hpos
        refine Or.inl ⟨_, hskip s hnone, ⟨kept, _, hnext, hinv⟩, ?_⟩
        simp only [advance]
        omega
      · rcases hend s kept seg todo hcur hpos hinv with
          ⟨s', kept', todo', hs', hcur', hinv', hless⟩ | herror
        · exact Or.inl ⟨s', hs', ⟨kept', todo', hcur', hinv'⟩, hless⟩
        · exact Or.inr herror

end LexicalPath.Scan
