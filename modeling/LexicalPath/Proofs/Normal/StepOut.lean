import LexicalPath.Proofs.Normal.Scans
import Mathlib.Data.List.Induction

/-!
# The scan that takes the steps

The third scan takes out each `..` segment together with the one in front of it, and fails where
there is none. Behind a step up it reads again from the place that the step leads to.
-/

namespace LexicalPath.Scan

open Text Segments

/-! ## One step -/

section

variable (sep : Separator) (start : Int) (s : Scan)

theorem stepOut_inside (h : s.buffer.holds s.pos sep.unit = .ok false) :
    stepOut sep start s = .ok s.advance := by
  unfold stepOut atDotDot
  simp [h]

theorem atDotDot_eq (b1 b2 b3 : Bool) (h : s.buffer.holds s.pos sep.unit = .ok true)
    (h1 : s.buffer.holds (s.pos - 1) CodeUnit.dot = .ok b1)
    (h2 : b1 = true → s.buffer.holds (s.pos - 2) CodeUnit.dot = .ok b2)
    (h3 : b2 = true → s.pos ≠ start + 2 → s.buffer.holds (s.pos - 3) sep.unit = .ok b3) :
    s.atDotDot sep start = .ok (b1 && b2 && (decide (s.pos = start + 2) || b3)) := by
  unfold atDotDot
  cases b1 with
  | false => simp [h, h1]
  | true =>
    have h2 := h2 rfl
    cases b2 with
    | false => simp [h, h1, h2]
    | true =>
      by_cases hpos : s.pos = start + 2
      · simp [h, h1, h2, if_pos hpos, decide_eq_true hpos]
      · simp [h, h1, h2, h3 rfl hpos, hpos]

theorem stepOut_other (h : s.atDotDot sep start = .ok false) :
    stepOut sep start s = .ok s.advance := by
  unfold stepOut
  simp [h]

theorem stepOut_above (h : s.atDotDot sep start = .ok true) (hpos : s.pos = start + 2) :
    stepOut sep start s = .error .aboveStart := by
  unfold stepOut
  simp [h, hpos]

theorem stepOut_behind (j : Int) (b : Buffer) (h : s.atDotDot sep start = .ok true)
    (hpos : s.pos ≠ start + 2)
    (hj : s.buffer.lastIndex? sep.unit start (s.pos - 3 - start).toNat = .ok (some j))
    (hb : s.buffer.move (s.pos + 1) (j + 1) (s.size - s.pos) = .ok b) :
    stepOut sep start s = .ok {
      buffer := b, size := s.size - (s.pos - j), pos := j + 2
      isDirectory := s.isDirectory || s.pos = s.size - 1 } := by
  unfold stepOut
  simp [h, hpos, hj, hb]

theorem stepOut_first (b : Buffer) (h : s.atDotDot sep start = .ok true)
    (hpos : s.pos ≠ start + 2)
    (hj : s.buffer.lastIndex? sep.unit start (s.pos - 3 - start).toNat = .ok none)
    (hb : s.buffer.move (s.pos + 1) start (s.size - s.pos) = .ok b) :
    stepOut sep start s = .ok {
      buffer := b, size := s.size - (s.pos + 1 - start), pos := start + 2
      isDirectory := s.isDirectory || s.pos = s.size - 1 } := by
  unfold stepOut
  simp [h, hpos, hj, hb]

end

/-! ## Looking back -/

theorem lastIndex?_skip (b : Buffer) (u : CodeUnit) (front a c : Text)
    (h : front ++ (a ++ c) <+: b.toList) (hc : ∀ x ∈ c, (x == u) = false) :
    b.lastIndex? u front.length (a.length + c.length) = b.lastIndex? u front.length a.length := by
  induction c using List.reverseRecOn with
  | nil => rfl
  | append_singleton c x ih =>
    have hx : b.holds (front.length + (a.length + c.length : Nat)) u = .ok false := by
      unfold Buffer.holds
      rw [read_at b (front ++ (a ++ c)) x [] _ (by simpa using h) (by simp), map_ok, hc x (by simp)]
    have hprefix : front ++ (a ++ c) <+: b.toList :=
      List.IsPrefix.trans ⟨[x], by simp⟩ h
    rw [← ih hprefix (fun y hy => hc y (List.mem_append_left _ hy)), List.length_append,
      List.length_singleton, ← Nat.add_assoc, Buffer.lastIndex?, hx, ok_bind, if_neg (by simp)]

theorem lastIndex?_eq_none (b : Buffer) (u : CodeUnit) (front c : Text)
    (h : front ++ c <+: b.toList) (hc : ∀ x ∈ c, (x == u) = false) :
    b.lastIndex? u front.length c.length = .ok none := by
  have hskip := lastIndex?_skip b u front [] c h hc
  rw [List.length_nil, Nat.zero_add] at hskip
  exact hskip

theorem lastIndex?_eq_some (b : Buffer) (u : CodeUnit) (front a c : Text)
    (h : front ++ (a ++ [u] ++ c) <+: b.toList) (hc : ∀ x ∈ c, (x == u) = false) :
    b.lastIndex? u front.length (a.length + 1 + c.length) = .ok (some (front.length + a.length)) := by
  have hskip := lastIndex?_skip b u front (a ++ [u]) c h hc
  have hu : b.holds (front.length + (a.length : Nat)) u = .ok true := by
    unfold Buffer.holds
    rw [read_at b (front ++ a) u c _ (by simpa using h) (by simp), map_ok, beq_self_eq_true]
  rw [List.length_append, List.length_singleton] at hskip
  rw [hskip, Buffer.lastIndex?, hu, ok_bind, if_pos rfl, pure_eq_ok]

theorem atDotDot_end (sep : Separator) (base : Text) (s : Scan) (kept : List Text) (seg : Text)
    (todo : List Text) (hcur : Cursor sep base kept (seg :: todo) s)
    (hpos : s.pos = (rowText sep base kept).length + seg.length) (hfree : SeparatorFree seg)
    (hne : seg ≠ []) (hdot : seg ≠ [CodeUnit.dot]) :
    s.atDotDot sep base.length = .ok (isDotDot seg) := by
  have hsep := hcur.at_separator sep base kept todo seg s hpos
  have hback := hcur.look_back sep base kept todo seg s hpos
  have hbase := length_le_rowText sep base kept
  obtain ⟨init, c, rfl⟩ := (List.eq_nil_or_concat' seg).resolve_left hne
  have h1 := hback (rowText sep base kept ++ init) c [] (by simp) (s.pos - 1) (by simp) CodeUnit.dot
  rcases List.eq_nil_or_concat' init with rfl | ⟨init, d, rfl⟩
  · have hc : (c == CodeUnit.dot) = false := by
      rw [beq_eq_false_iff_ne]
      rintro rfl
      exact hdot rfl
    rw [hc] at h1
    rw [atDotDot_eq sep base.length s false false false hsep h1 (by simp) (by simp)]
    simp [isDotDot]
  have h2 := hback (rowText sep base kept ++ init) d [c] (by simp) (s.pos - 2) (by simp) CodeUnit.dot
  rcases List.eq_nil_or_concat' init with rfl | ⟨init, e, rfl⟩
  · -- Two units: either the segment comes first, or a separator stands in front of it.
    rw [atDotDot_eq sep base.length s _ _ true hsep h1 (fun _ => h2)]
    · simp [isDotDot, Bool.and_comm]
    · intro _ hfirst
      rcases rowText_eq_base_or_snoc sep base kept with rfl | ⟨front, hfront⟩
      · exact absurd (by simpa [rowText, closed] using hpos) hfirst
      · rw [hback front sep.unit [d, c] (by simp [hfront]) _ (by simp), beq_self_eq_true]
  · have h3 := hback (rowText sep base kept ++ init) e [d, c] (by simp) (s.pos - 3) (by simp) sep.unit
    rw [separator_bne e sep (hfree e (by simp))] at h3
    have hfirst : s.pos ≠ base.length + 2 := by
      simp only [List.length_append, List.length_singleton] at hpos
      omega
    have hother : isDotDot (init ++ [e] ++ [d] ++ [c]) = false := by
      unfold isDotDot
      rw [beq_eq_false_iff_ne]
      exact fun h => by simpa using congrArg List.length h
    rw [atDotDot_eq sep base.length s _ _ false hsep h1 (fun _ => h2) (fun _ _ => h3), hother]
    simp [hfirst]

/-! ## A step up -/

section

variable (sep : Separator) (base : Text) (s : Scan) (above : List Text) (last : Text)
  (todo : List Text)

theorem rowText_pop :
    rowText sep base (above ++ [last] ++ [CodeUnit.dot, CodeUnit.dot] :: todo) =
      rowText sep base above ++ (last ++ ([sep.unit, CodeUnit.dot, CodeUnit.dot, sep.unit] ++
        closed sep todo)) := by
  rw [rowText_cons, rowText_snoc]
  simp

theorem rowText_snoc_length :
    (rowText sep base (above ++ [last])).length = (rowText sep base above).length + last.length + 1 := by
  rw [rowText_snoc, List.length_append, List.length_append, List.length_singleton]

theorem stepOut_gap (hcur : Cursor sep base (above ++ [last]) ([CodeUnit.dot, CodeUnit.dot] :: todo) s)
    (hpos : s.pos = (rowText sep base (above ++ [last])).length + 2) (target : Int)
    (htarget : target = (rowText sep base above).length) :
    ∃ b, s.buffer.move (s.pos + 1) target (s.size - s.pos) = .ok b ∧
      ∀ s' : Scan, s'.buffer = b → s'.size = s.size - (s.pos + 1 - target) →
        s'.Holds (rowText sep base (above ++ todo)) := by
  have hsize := hcur.size_cons
  have hlen := rowText_snoc_length sep base above last
  simp only [List.length_cons, List.length_nil] at hsize
  obtain ⟨b, hb, hholds⟩ := move_closes_gap s (rowText sep base above)
    (last ++ [sep.unit, CodeUnit.dot, CodeUnit.dot, sep.unit]) (closed sep todo) _ (s.pos + 1) target
    (s.size - s.pos) hcur.holds (by rw [rowText_pop, List.append_assoc]) (by simp; omega) htarget
    (by omega)
  refine ⟨b, hb, ?_⟩
  intro s' hbuffer hsize'
  rw [rowText_append]
  exact hholds s' hbuffer (by omega)

theorem lastIndex?_first (hlast : SeparatorFree last)
    (hcur : Cursor sep base ([] ++ [last]) ([CodeUnit.dot, CodeUnit.dot] :: todo) s)
    (hpos : s.pos = (rowText sep base ([] ++ [last])).length + 2) :
    s.buffer.lastIndex? sep.unit base.length (s.pos - 3 - base.length).toNat = .ok none := by
  have hrow := rowText_nil sep base
  have hcount : (s.pos - 3 - base.length).toNat = last.length := by
    rw [rowText_snoc_length, hrow] at hpos
    omega
  rw [hcount]
  apply lastIndex?_eq_none _ _ _ _ _ (fun x hx => separator_bne x sep (hlast x hx))
  refine List.IsPrefix.trans
    ⟨[sep.unit, CodeUnit.dot, CodeUnit.dot, sep.unit] ++ closed sep todo, ?_⟩ hcur.holds.contents
  rw [rowText_pop, hrow, List.append_assoc]

theorem lastIndex?_behind (up : Text) (hlast : SeparatorFree last)
    (hcur : Cursor sep base (above ++ [up] ++ [last]) ([CodeUnit.dot, CodeUnit.dot] :: todo) s)
    (hpos : s.pos = (rowText sep base (above ++ [up] ++ [last])).length + 2) :
    s.buffer.lastIndex? sep.unit base.length (s.pos - 3 - base.length).toNat =
      .ok (some ((rowText sep base (above ++ [up])).length - 1)) := by
  have hup : rowText sep base (above ++ [up]) = base ++ (closed sep above ++ up ++ [sep.unit]) := by
    unfold rowText
    rw [closed_append, closed_singleton, List.append_assoc]
  have hlen : (rowText sep base (above ++ [up])).length =
      base.length + ((closed sep above ++ up).length + 1) := by
    rw [hup, List.length_append, List.length_append, List.length_singleton]
  have hcount : (s.pos - 3 - base.length).toNat = (closed sep above ++ up).length + 1 + last.length := by
    rw [rowText_snoc_length] at hpos
    omega
  have hindex : ((rowText sep base (above ++ [up])).length - 1 : Int) =
      base.length + ((closed sep above ++ up).length : Nat) := by
    omega
  rw [hcount, hindex]
  apply lastIndex?_eq_some _ _ _ _ _ _ (fun x hx => separator_bne x sep (hlast x hx))
  refine List.IsPrefix.trans
    ⟨[sep.unit, CodeUnit.dot, CodeUnit.dot, sep.unit] ++ closed sep todo, ?_⟩ hcur.holds.contents
  rw [rowText_pop, hup]
  simp only [List.append_assoc]

/-- A step up takes out its own segment and the one in front. The scan goes on one unit behind the
gap, or two units if it starts again from the base. -/
theorem stepOut_pop (hlast : SeparatorFree last)
    (hcur : Cursor sep base (above ++ [last]) ([CodeUnit.dot, CodeUnit.dot] :: todo) s)
    (hpos : s.pos = (rowText sep base (above ++ [last])).length + 2) :
    ∃ s', stepOut sep base.length s = .ok s' ∧ s'.Holds (rowText sep base (above ++ todo)) ∧
      s'.isDirectory = (s.isDirectory || decide (todo = [])) ∧
      s'.size - s'.pos < s.size - s.pos ∧
      (s'.pos = (rowText sep base above).length + 1 ∨
        (above = [] ∧ s'.pos = (rowText sep base []).length + 2)) := by
  have hat := atDotDot_end sep base s (above ++ [last]) _ todo hcur hpos
    (by simp [SeparatorFree, Separator.isUnit_dot]) (by simp) (by decide)
  rw [show isDotDot [CodeUnit.dot, CodeUnit.dot] = true by decide] at hat
  have hend := pos_eq_last_iff sep base _ todo _ s hcur hpos
  have hbase := length_le_rowText sep base above
  have hlen := rowText_snoc_length sep base above last
  have hne : s.pos ≠ base.length + 2 := by omega
  rcases List.eq_nil_or_concat' above with rfl | ⟨above, up, rfl⟩
  · have hrow := rowText_nil sep base
    obtain ⟨b, hb, hholds⟩ := stepOut_gap sep base s [] last todo hcur hpos base.length (by rw [hrow])
    refine ⟨_, stepOut_first sep base.length s b hat hne
      (lastIndex?_first sep base s last todo hlast hcur hpos) hb, hholds _ rfl rfl, ?_, ?_,
      Or.inr ⟨rfl, by rw [hrow]⟩⟩
    · rw [decide_eq_decide.mpr hend]
    · simp only
      omega
  · obtain ⟨b, hb, hholds⟩ := stepOut_gap sep base s (above ++ [up]) last todo hcur hpos
      ((rowText sep base (above ++ [up])).length - 1 + 1) (by omega)
    refine ⟨_, stepOut_behind sep base.length s _ b hat hne
      (lastIndex?_behind sep base s above last todo up hlast hcur hpos) hb, ?_, ?_, ?_, Or.inl ?_⟩
    · exact hholds _ rfl (by simp only; omega)
    · rw [decide_eq_decide.mpr hend]
    · simp only
      omega
    · simp only
      omega

end

/-! ## The whole scan -/

/-- The steps of `todo`, taken from the place that `kept` leads to, have the outcome `goal`. -/
structure StepOutInv (goal : Option (List Text)) (flag : Bool) (kept todo : List Text)
    (isDirectory : Bool) : Prop where
  kept_free : ∀ seg ∈ kept, SeparatorFree seg
  free : ∀ seg ∈ todo, SeparatorFree seg
  proper : ∀ seg ∈ todo, isEmptyOrDot seg = false
  goal_eq : resolve kept.reverse todo = goal
  flag_eq : (isDirectory || endsIn [CodeUnit.dot, CodeUnit.dot] todo) = flag

theorem ne_of_proper (seg : Text) (h : isEmptyOrDot seg = false) :
    seg ≠ [] ∧ seg ≠ [CodeUnit.dot] := by
  constructor <;> rintro rfl <;> exact absurd h (by decide)

theorem StepOutInv.push (goal : Option (List Text)) (flag : Bool) (kept todo : List Text)
    (seg : Text) (d : Bool) (h : StepOutInv goal flag kept (seg :: todo) d)
    (hseg : isDotDot seg = false) : StepOutInv goal flag (kept ++ [seg]) todo d := by
  obtain ⟨hkept, hfree, hproper, hgoal, hflag⟩ := h
  refine ⟨?_, fun x hx => hfree x (List.mem_cons_of_mem seg hx),
    fun x hx => hproper x (List.mem_cons_of_mem seg hx), ?_, ?_⟩
  · intro x hx
    rcases List.mem_append.mp hx with hx | hx
    · exact hkept x hx
    · rw [List.mem_singleton.mp hx]
      exact hfree seg List.mem_cons_self
  · rw [← hgoal, resolve_cons_push]
    · simp
    · unfold isDirectoryMark
      rw [hproper seg List.mem_cons_self, hseg, Bool.or_false]
  · rw [← hflag, endsIn_cons_other]
    simpa [isDotDot] using hseg

/-- Two units behind the base no step up can have been passed over. -/
theorem stepOut_start (sep : Separator) (base : Text) (goal : Option (List Text)) (flag : Bool)
    (s : Scan) (todo : List Text) (hholds : s.Holds (rowText sep base todo))
    (hpos : s.pos = (rowText sep base []).length + 2)
    (hinv : StepOutInv goal flag [] todo s.isDirectory) :
    ∃ kept' todo', Cursor sep base kept' todo' s ∧ StepOutInv goal flag kept' todo' s.isDirectory := by
  match todo with
  | [] => exact ⟨[], [], ⟨hholds, by omega, by simp⟩, hinv⟩
  | [] :: todo => exact absurd (hinv.proper [] List.mem_cons_self) (by decide)
  | [c] :: todo =>
    have hlen : (rowText sep base [[c]]).length = (rowText sep base []).length + 2 := by
      simp [rowText, closed]
    refine ⟨[[c]], todo, ⟨hholds, by omega, ?_⟩, hinv.push goal flag [] todo [c] _ (by simp [isDotDot])⟩
    intro x _
    omega
  | (c :: d :: seg) :: todo =>
    refine ⟨[], _, ⟨hholds, by omega, ?_⟩, hinv⟩
    intro x hx
    obtain rfl : c :: d :: seg = x := by simpa using hx
    simp only [List.length_cons]
    omega

def StepOutPost (sep : Separator) (base : Text) (goal : Option (List Text)) (flag : Bool)
    (r : Except EditError Scan) : Prop :=
  match goal with
  | some segments => ∃ s', r = .ok s' ∧ s'.Holds (rowText sep base segments) ∧ s'.isDirectory = flag
  | none => r = .error .aboveStart

theorem stepOut_end (sep : Separator) (base : Text) (goal : Option (List Text)) (flag : Bool)
    (s : Scan) (kept : List Text) (seg : Text) (todo : List Text)
    (hcur : Cursor sep base kept (seg :: todo) s)
    (hpos : s.pos = (rowText sep base kept).length + seg.length)
    (hinv : StepOutInv goal flag kept (seg :: todo) s.isDirectory) :
    (∃ s' kept' todo', stepOut sep base.length s = .ok s' ∧ Cursor sep base kept' todo' s' ∧
      StepOutInv goal flag kept' todo' s'.isDirectory ∧ s'.size - s'.pos < s.size - s.pos) ∨
      ∃ e, stepOut sep base.length s = .error e ∧ StepOutPost sep base goal flag (.error e) := by
  have hproper := hinv.proper seg List.mem_cons_self
  have hat := atDotDot_end sep base s kept seg todo hcur hpos (hinv.free seg List.mem_cons_self)
    (ne_of_proper seg hproper).1 (ne_of_proper seg hproper).2
  cases hdots : isDotDot seg with
  | false =>
    rw [hdots] at hat
    refine Or.inl ⟨_, kept ++ [seg], todo, stepOut_other sep base.length s hat,
      hcur.next sep base kept todo seg s hpos, hinv.push goal flag kept todo seg _ hdots, ?_⟩
    simp only [advance]
    omega
  | true =>
    rw [hdots] at hat
    obtain ⟨hkept, hfree, hproper, hgoal, hflag⟩ := hinv
    rcases List.eq_nil_or_concat' kept with rfl | ⟨above, last, rfl⟩
    · -- Nothing is left to step out of.
      rw [List.reverse_nil, resolve_cons_above seg todo hdots] at hgoal
      obtain rfl : seg = [CodeUnit.dot, CodeUnit.dot] := by simpa [isDotDot] using hdots
      refine Or.inr ⟨.aboveStart, stepOut_above sep base.length s hat ?_, hgoal ▸ rfl⟩
      simpa [rowText, closed] using hpos
    · rw [List.reverse_append, List.reverse_singleton, List.singleton_append,
        resolve_cons_pop _ last seg todo hdots] at hgoal
      obtain rfl : seg = [CodeUnit.dot, CodeUnit.dot] := by simpa [isDotDot] using hdots
      obtain ⟨s', hs', hholds, hdir, hless, hplace⟩ := stepOut_pop sep base s above last todo
        (hkept last (by simp)) hcur hpos
      have hinv' : StepOutInv goal flag above todo s'.isDirectory := by
        refine ⟨fun x hx => hkept x (List.mem_append_left _ hx),
          fun x hx => hfree x (List.mem_cons_of_mem _ hx),
          fun x hx => hproper x (List.mem_cons_of_mem _ hx), hgoal, ?_⟩
        rw [← hflag, endsIn_cons_mark, hdir, Bool.or_assoc]
      rcases hplace with hpos' | ⟨rfl, hpos'⟩
      · refine Or.inl ⟨s', above, todo, hs', ⟨hholds, by omega, ?_⟩, hinv', hless⟩
        intro x hx
        have hx' := List.length_pos_iff.mpr
          (ne_of_proper x (hinv'.proper x (List.mem_of_mem_head? hx))).1
        omega
      · obtain ⟨kept', todo', hcur', hinv'⟩ :=
          stepOut_start sep base goal flag s' todo hholds hpos' hinv'
        exact Or.inl ⟨s', kept', todo', hs', hcur', hinv', hless⟩

theorem stepOut_row (sep : Separator) (base : Text) (row : List Text) (s : Scan)
    (hholds : s.Holds (rowText sep base row)) (hfree : ∀ seg ∈ row, SeparatorFree seg)
    (hproper : ∀ seg ∈ row, isEmptyOrDot seg = false) :
    StepOutPost sep base (resolve [] row)
      (s.isDirectory || endsIn [CodeUnit.dot, CodeUnit.dot] row)
      (s.scanFrom (stepOut sep base.length) (base.length + 2)) := by
  obtain ⟨kept, todo, hcur, hinv⟩ := stepOut_start sep base (resolve [] row)
    (s.isDirectory || endsIn [CodeUnit.dot, CodeUnit.dot] row) { s with pos := base.length + 2 } row
    (hholds.at_pos s _ _) (by rw [rowText_nil]) ⟨by simp, hfree, hproper, rfl, rfl⟩
  apply scanFrom_row sep base (stepOut sep base.length) (StepOutInv _ _) _
    (fun kept todo d hinv => hinv.free) (stepOut_inside sep base.length) _ _ _ s kept todo hcur hinv
  · intro s' kept hholds hinv
    have hgoal := hinv.goal_eq
    rw [resolve, List.reverse_reverse] at hgoal
    rw [← hgoal]
    exact ⟨s', rfl, hholds, by simpa [endsIn] using hinv.flag_eq⟩
  · intro s' kept seg todo hcur hpos hinv
    exact stepOut_end sep base _ _ s' kept seg todo hcur hpos hinv

end LexicalPath.Scan
