import LexicalPath.Proofs.Normal.Reference

/-!
# Edits stay in their buffer

Every access to a buffer is checked, so an edit that left its buffer would end with an error. None
does. In each state of an edit the text in use is at least as long as the prefix, and at least one
unit of the buffer is free behind it. The position may go back, but with every step fewer units are
left in front of it.
-/

namespace LexicalPath

/-! ## Checked accesses -/

namespace Buffer

theorem exists_holds_iff (b : Buffer) (i : Int) (u : CodeUnit) :
    (∃ answer, b.holds i u = .ok answer) ↔ 0 ≤ i ∧ i < b.size := by
  unfold holds read
  by_cases hi : 0 ≤ i
  · rw [if_pos hi, and_iff_right hi]
    cases hget : b[i.toNat]? with
    | none =>
      have hout : b.size ≤ i.toNat := Array.getElem?_eq_none_iff.mp hget
      have hbehind : (b.size : Int) ≤ i := by omega
      simpa using hbehind
    | some v =>
      obtain ⟨hin, -⟩ := Array.getElem?_eq_some_iff.mp hget
      simpa using (Int.toNat_lt hi).mp hin
  · simp [hi]

theorem exists_move_iff (b : Buffer) (source target count : Int) :
    (∃ b', b.move source target count = .ok b') ↔
      0 ≤ source ∧ 0 ≤ target ∧ 0 ≤ count ∧ source + count ≤ b.size ∧ target + count ≤ b.size := by
  unfold move
  split
  · next h => simp [h]
  · next h => simpa using h

theorem exists_lastIndex? (b : Buffer) (u : CodeUnit) (start : Int) (count : Nat) (hstart : 0 ≤ start)
    (hend : start + count ≤ b.size) :
    ∃ found, b.lastIndex? u start count = .ok found ∧ ∀ j ∈ found, start ≤ j ∧ j < start + count := by
  induction count with
  | zero => exact ⟨none, rfl, by simp⟩
  | succ count ih =>
    obtain ⟨answer, hanswer⟩ := (exists_holds_iff b (start + count) u).mpr (by omega)
    rw [lastIndex?, hanswer, ok_bind]
    cases answer with
    | true =>
      refine ⟨some (start + count), rfl, ?_⟩
      rintro j ⟨⟩
      omega
    | false =>
      obtain ⟨found, hfound, hrange⟩ := ih (by omega)
      refine ⟨found, by simpa using hfound, ?_⟩
      intro j hj
      have := hrange j hj
      omega

end Buffer

namespace Scan

open Text

/-! ## The states of an edit -/

/-- The three scans of an edit. -/
inductive Pass where
  | squeeze
  | dropDot
  | stepOut
  deriving Repr, DecidableEq

namespace Pass

/-- The position at which a scan begins. -/
def first (start : Nat) : Pass → Int
  | squeeze => max start 1
  | dropDot => start + 1
  | stepOut => start + 2

def step (sep : Separator) (start : Nat) : Pass → Scan → Except EditError Scan
  | squeeze => Scan.squeeze sep
  | dropDot => Scan.dropDot sep start
  | stepOut => Scan.stepOut sep start

def next? : Pass → Option Pass
  | squeeze => some dropDot
  | dropDot => some stepOut
  | stepOut => none

end Pass

/-- The states that the edit of a path goes through, each with the scan that it is in. -/
inductive Visits (sep : Separator) (start : Nat) (path : Text) : Pass → Scan → Prop where
  | opened (s : Scan) (h : ofPath sep path = .ok s) :
      Visits sep start path .squeeze { s with pos := Pass.first start .squeeze }
  | step (pass : Pass) (s s' : Scan) (h : Visits sep start path pass s) (hlt : s.pos < s.size)
      (hs : pass.step sep start s = .ok s') : Visits sep start path pass s'
  | next (pass pass' : Pass) (s : Scan) (h : Visits sep start path pass s) (hend : s.size ≤ s.pos)
      (hnext : pass.next? = some pass') : Visits sep start path pass' { s with pos := pass'.first start }

/-- What holds in every state: the buffer keeps its `room`, the text in use covers the prefix and
leaves a unit of the buffer free, and the position is not in front of the one at which the scan
begins. -/
structure Within (room start : Nat) (first : Int) (s : Scan) : Prop where
  buffer_size : s.buffer.size = room
  start_le_size : start ≤ s.size
  size_lt_room : s.size < room
  first_le_pos : first ≤ s.pos

/-- What every step does: the text does not grow, and its end comes nearer. -/
structure Shrinks (s s' : Scan) : Prop where
  size_le : s'.size ≤ s.size
  nearer : s'.size - s'.pos < s.size - s.pos

/-! ## One step -/

section

variable (sep : Separator) {room start : Nat} {first : Int} {s : Scan}

theorem Within.at_pos (h : Within room start first s) (pos : Int) :
    Within room start pos { s with pos } :=
  ⟨h.buffer_size, h.start_le_size, h.size_lt_room, Int.le_refl pos⟩

theorem Within.advance (h : Within room start first s) :
    Within room start first s.advance ∧ Shrinks s s.advance := by
  obtain ⟨hroom, hstart, hsize, hpos⟩ := h
  refine ⟨⟨hroom, hstart, hsize, ?_⟩, ⟨Int.le_refl _, ?_⟩⟩ <;> simp only [Scan.advance] <;> omega

theorem Within.shrink (h : Within room start first s) {s' : Scan} (hroom : s'.buffer.size = room)
    (hstart : start ≤ s'.size) (hsize : s'.size ≤ s.size) (hfirst : first ≤ s'.pos)
    (hnearer : s'.size - s'.pos < s.size - s.pos) :
    Within room start first s' ∧ Shrinks s s' :=
  ⟨⟨hroom, hstart, Int.lt_of_le_of_lt hsize h.size_lt_room, hfirst⟩, ⟨hsize, hnearer⟩⟩

theorem Within.exists_holds (h : Within room start first s) (hlt : s.pos < s.size) (i : Int)
    (h0 : 0 ≤ i) (hi : i ≤ s.pos) (u : CodeUnit) : ∃ answer, s.buffer.holds i u = .ok answer := by
  rw [Buffer.exists_holds_iff]
  have := h.buffer_size
  have := h.size_lt_room
  omega

theorem Within.exists_holds_unless (h : Within room start first s) (hlt : s.pos < s.size) (i : Int)
    (h0 : s.pos ≠ first → 0 ≤ i) (hi : i ≤ s.pos) (u : CodeUnit) :
    ∃ answer, s.pos ≠ first → s.buffer.holds i u = .ok answer := by
  by_cases hfirst : s.pos = first
  · exact ⟨true, fun hne => absurd hfirst hne⟩
  · obtain ⟨answer, hanswer⟩ := h.exists_holds hlt i (h0 hfirst) hi u
    exact ⟨answer, fun _ => hanswer⟩

theorem Within.exists_move (h : Within room start first s) (hlt : s.pos < s.size)
    (source target : Int) (h0 : 0 ≤ target) (htarget : target ≤ source)
    (hsource : source = s.pos ∨ source = s.pos + 1) :
    ∃ b, s.buffer.move source target (s.size - s.pos) = .ok b ∧ b.size = room := by
  have hroom := h.buffer_size
  have hsize := h.size_lt_room
  obtain ⟨b, hb⟩ := (Buffer.exists_move_iff s.buffer source target (s.size - s.pos)).mpr (by omega)
  exact ⟨b, hb, (Buffer.size_of_move hb).trans hroom⟩

theorem squeeze_within (h : Within room start (max (start : Int) 1) s) (hlt : s.pos < s.size) :
    ∃ s', squeeze sep s = .ok s' ∧ Within room start (max (start : Int) 1) s' ∧ Shrinks s s' := by
  have hpos := h.first_le_pos
  obtain ⟨b0, h0⟩ := h.exists_holds hlt s.pos (by omega) (by omega) sep.unit
  obtain ⟨b1, h1⟩ := h.exists_holds hlt (s.pos - 1) (by omega) (by omega) sep.unit
  cases b0 with
  | false => exact ⟨_, squeeze_inside sep s h0, h.advance⟩
  | true =>
    cases b1 with
    | false => exact ⟨_, squeeze_single sep s h0 h1, h.advance⟩
    | true =>
      obtain ⟨b, hb, hroom⟩ := h.exists_move hlt s.pos (s.pos - 1) (by omega) (by omega)
        (Or.inl rfl)
      refine ⟨_, squeeze_double sep s b h0 h1 hb, h.shrink hroom ?_ ?_ hpos ?_⟩ <;>
        simp only <;> omega

theorem dropDot_within (h : Within room start ((start : Int) + 1) s) (hlt : s.pos < s.size) :
    ∃ s', dropDot sep start s = .ok s' ∧ Within room start ((start : Int) + 1) s' ∧ Shrinks s s' := by
  have hpos := h.first_le_pos
  obtain ⟨b0, h0⟩ := h.exists_holds hlt s.pos (by omega) (by omega) sep.unit
  obtain ⟨b1, h1⟩ := h.exists_holds hlt (s.pos - 1) (by omega) (by omega) CodeUnit.dot
  obtain ⟨b2, h2⟩ := h.exists_holds_unless hlt (s.pos - 2) (by omega) (by omega) sep.unit
  cases b0 with
  | false => exact ⟨_, dropDot_inside sep start s h0, h.advance⟩
  | true =>
    have hat := atDot_eq sep start s b1 b2 h0 h1 h2
    cases hdot : (b1 && (decide (s.pos = (start : Int) + 1) || b2)) with
    | false =>
      rw [hdot] at hat
      exact ⟨_, dropDot_other sep start s hat, h.advance⟩
    | true =>
      rw [hdot] at hat
      obtain ⟨b, hb, hroom⟩ := h.exists_move hlt (s.pos + 1) (s.pos - 1) (by omega) (by omega)
        (Or.inr rfl)
      refine ⟨_, dropDot_dot sep start s b hat hb, h.shrink hroom ?_ ?_ hpos ?_⟩ <;>
        simp only <;> omega

theorem stepOut_within (h : Within room start ((start : Int) + 2) s) (hlt : s.pos < s.size) :
    (∃ s', stepOut sep start s = .ok s' ∧ Within room start ((start : Int) + 2) s' ∧ Shrinks s s') ∨
      stepOut sep start s = .error .aboveStart := by
  have hpos := h.first_le_pos
  obtain ⟨b0, h0⟩ := h.exists_holds hlt s.pos (by omega) (by omega) sep.unit
  obtain ⟨b1, h1⟩ := h.exists_holds hlt (s.pos - 1) (by omega) (by omega) CodeUnit.dot
  obtain ⟨b2, h2⟩ := h.exists_holds hlt (s.pos - 2) (by omega) (by omega) CodeUnit.dot
  obtain ⟨b3, h3⟩ := h.exists_holds_unless hlt (s.pos - 3) (by omega) (by omega) sep.unit
  cases b0 with
  | false => exact Or.inl ⟨_, stepOut_inside sep start s h0, h.advance⟩
  | true =>
    have hat := atDotDot_eq sep start s b1 b2 b3 h0 h1 (fun _ => h2) (fun _ => h3)
    cases hdots : (b1 && b2 && (decide (s.pos = (start : Int) + 2) || b3)) with
    | false =>
      rw [hdots] at hat
      exact Or.inl ⟨_, stepOut_other sep start s hat, h.advance⟩
    | true =>
      rw [hdots] at hat
      by_cases hfirst : s.pos = (start : Int) + 2
      · exact Or.inr (stepOut_above sep start s hat hfirst)
      · -- The units that are looked at for the separator in front lie behind the prefix.
        have hroom := h.buffer_size
        have hsize := h.size_lt_room
        obtain ⟨found, hfound, hrange⟩ := Buffer.exists_lastIndex? s.buffer sep.unit start
          (s.pos - 3 - start).toNat (by omega) (by omega)
        cases found with
        | none =>
          obtain ⟨b, hb, hroom⟩ := h.exists_move hlt (s.pos + 1) start (by omega) (by omega)
            (Or.inr rfl)
          refine Or.inl ⟨_, stepOut_first sep start s b hat hfirst hfound hb,
            h.shrink hroom ?_ ?_ ?_ ?_⟩ <;> simp only <;> omega
        | some j =>
          have hj := hrange j rfl
          obtain ⟨b, hb, hroom⟩ := h.exists_move hlt (s.pos + 1) (j + 1) (by omega) (by omega)
            (Or.inr rfl)
          refine Or.inl ⟨_, stepOut_behind sep start s j b hat hfirst hfound hb,
            h.shrink hroom ?_ ?_ ?_ ?_⟩ <;> simp only <;> omega

theorem step_within (pass : Pass) (h : Within room start (pass.first start) s) (hlt : s.pos < s.size) :
    (∃ s', pass.step sep start s = .ok s' ∧ Within room start (pass.first start) s' ∧ Shrinks s s') ∨
      (pass = .stepOut ∧ pass.step sep start s = .error .aboveStart) := by
  cases pass with
  | squeeze => exact Or.inl (squeeze_within sep h hlt)
  | dropDot => exact Or.inl (dropDot_within sep h hlt)
  | stepOut => exact (stepOut_within sep h hlt).imp_right fun herror => ⟨rfl, herror⟩

end

/-! ## The whole edit -/

theorem ofPath_room (sep : Separator) (path : Text) (s : Scan) (h : ofPath sep path = .ok s) :
    s.buffer.size = path.length + 2 := by
  have hroom : (Buffer.ofText (path.withSeparator sep) 2).size = path.length + 2 := by
    rw [Buffer.size_ofText, withSeparator_length]
  unfold ofPath at h
  cases hlast : (Buffer.ofText (path.withSeparator sep) 2).holds (path.length - 1) sep.unit with
  | error e => simp [hlast] at h
  | ok closed =>
    cases closed with
    | true =>
      obtain rfl : _ = s := by simpa [hlast] using h
      exact hroom
    | false =>
      cases hwrite : (Buffer.ofText (path.withSeparator sep) 2).write path.length sep.unit with
      | error e => simp [hlast, hwrite] at h
      | ok b =>
        obtain rfl : _ = s := by simpa [hlast, hwrite] using h
        exact (Buffer.size_of_write hwrite).trans hroom

/-- A prefix is longer than its path only where a separator is put behind the path. -/
theorem ofPath_within (sep : Separator) (path : Text) (start : Nat) (hne : path ≠ [])
    (hstart : Prefix.length? path = some start) :
    ∃ s, ofPath sep path = .ok s ∧ path.length ≤ s.size ∧ Within (path.length + 2) start s.pos s := by
  obtain ⟨s, hs, -, hholds⟩ := ofPath_spec sep path hne
  obtain ⟨kind, hform⟩ := (Prefix.length?_eq_some_iff_form path start).mp hstart
  have hlength := Prefix.form_length path ⟨kind, start⟩ hform
  have hsize := hholds.size_eq
  rw [List.length_append, withSeparator_length] at hsize
  refine ⟨s, hs, by omega, ofPath_room sep path s hs, ?_, ?_, Int.le_refl _⟩
  · rcases hlength with hle | ⟨heq, -, hfree⟩
    · simp only at hle
      omega
    · rw [endsWithSeparator_of_separatorFree path hfree] at hsize
      simp only [if_neg Bool.false_ne_true, List.length_singleton] at hsize heq
      omega
  · split at hsize <;> simp only [List.length_nil, List.length_singleton] at hsize <;> omega

theorem visits_within (sep : Separator) (path : Text) (start : Nat) (hne : path ≠ [])
    (hstart : Prefix.length? path = some start) (pass : Pass) (s : Scan)
    (h : Visits sep start path pass s) : Within (path.length + 2) start (pass.first start) s := by
  induction h with
  | opened s hs =>
    obtain ⟨s', hs', -, hwithin⟩ := ofPath_within sep path start hne hstart
    obtain rfl : s = s' := Except.ok.inj (hs.symm.trans hs')
    exact hwithin.at_pos _
  | step pass s s' _ hlt hs ih =>
    rcases step_within sep pass ih hlt with ⟨t, ht, hwithin, -⟩ | ⟨-, herror⟩
    · obtain rfl : s' = t := Except.ok.inj (hs.symm.trans ht)
      exact hwithin
    · rw [hs] at herror
      cases herror
  | next pass pass' s _ _ _ ih => exact ih.at_pos _

theorem scanFrom_visits (sep : Separator) (path : Text) (start : Nat) (hne : path ≠ [])
    (hstart : Prefix.length? path = some start) (pass : Pass) (s : Scan)
    (h : Visits sep start path pass { s with pos := pass.first start }) :
    (∃ s', s.scanFrom (pass.step sep start) (pass.first start) = .ok s' ∧
      Visits sep start path pass s' ∧ s'.size ≤ s'.pos) ∨
    (pass = .stepOut ∧ s.scanFrom (pass.step sep start) (pass.first start) = .error .aboveStart ∧
      ∃ s', Visits sep start path pass s' ∧ s'.pos < s'.size ∧
        pass.step sep start s' = .error .aboveStart) := by
  apply scanFrom_spec (pass.step sep start) (Visits sep start path pass)
    (fun r => (∃ s', r = .ok s' ∧ Visits sep start path pass s' ∧ s'.size ≤ s'.pos) ∨
      (pass = .stepOut ∧ r = .error .aboveStart ∧ ∃ s', Visits sep start path pass s' ∧
        s'.pos < s'.size ∧ pass.step sep start s' = .error .aboveStart)) _ s h
  · exact fun s hs hend => Or.inl ⟨s, rfl, hs, hend⟩
  · intro s hs hlt
    rcases step_within sep pass (visits_within sep path start hne hstart pass s hs) hlt with
      ⟨s', hs', -, hshrinks⟩ | ⟨hpass, herror⟩
    · exact Or.inl ⟨s', hs', hs.step pass s s' hlt hs', hshrinks.nearer⟩
    · exact Or.inr ⟨.aboveStart, herror, Or.inr ⟨hpass, rfl, s, hs, hlt, herror⟩⟩

/-- The edit ends in the state: either the position has come to the end and the text is the result, or
the path steps out of the place that it starts from. -/
def EndsAt (sep : Separator) (ending : Ending) (start : Nat) (path : Text) (s : Scan) : Prop :=
  (s.size ≤ s.pos ∧ edit sep ending start path = .ok (s.text ending start)) ∨
    (s.pos < s.size ∧ stepOut sep start s = .error .aboveStart ∧
      edit sep ending start path = .error .aboveStart)

theorem edit_ends (sep : Separator) (ending : Ending) (path : Text) (start : Nat) (hne : path ≠ [])
    (hstart : Prefix.length? path = some start) :
    ∃ s, Visits sep start path .stepOut s ∧ EndsAt sep ending start path s := by
  have hscan := scanFrom_visits sep path start hne hstart
  obtain ⟨s, hs, -⟩ := ofPath_within sep path start hne hstart
  -- Only the last scan can step out of the start.
  obtain ⟨s1, hs1, hvisits1, hend1⟩ :=
    (hscan .squeeze s (.opened s hs)).resolve_right (by rintro ⟨⟨⟩, -⟩)
  obtain ⟨s2, hs2, hvisits2, hend2⟩ :=
    (hscan .dropDot s1 (.next .squeeze .dropDot s1 hvisits1 hend1 rfl)).resolve_right
      (by rintro ⟨⟨⟩, -⟩)
  simp only [Pass.step, Pass.first] at hs1 hs2
  rcases hscan .stepOut s2 (.next .dropDot .stepOut s2 hvisits2 hend2 rfl) with
    ⟨s3, hs3, hvisits3, hend3⟩ | ⟨-, herror, s3, hvisits3, hlt3, hstep3⟩
  · simp only [Pass.step, Pass.first] at hs3
    refine ⟨s3, hvisits3, Or.inl ⟨hend3, ?_⟩⟩
    unfold edit
    rw [hs, ok_bind, hs1, ok_bind, hs2, ok_bind, hs3, ok_bind, pure_eq_ok]
  · simp only [Pass.step, Pass.first] at herror hstep3
    refine ⟨s3, hvisits3, Or.inr ⟨hlt3, hstep3, ?_⟩⟩
    unfold edit
    rw [hs, ok_bind, hs1, ok_bind, hs2, ok_bind, herror, error_bind]

/-- The edit of a path stays in its buffer and comes to an end. -/
structure StaysInBuffer (sep : Separator) (ending : Ending) (start : Nat) (path : Text) : Prop where
  /-- There is room for two units more than the path has, and at most one of them is in use. -/
  opens : ∃ s, ofPath sep path = .ok s ∧ s.buffer.size = path.length + 2 ∧
    path.length ≤ s.size ∧ s.size ≤ path.length + 1
  within : ∀ pass s, Visits sep start path pass s →
    Within (path.length + 2) start (pass.first start) s
  /-- As long as there are units in front of it, a step makes no access outside of the buffer. -/
  steps : ∀ pass s, Visits sep start path pass s → s.pos < s.size →
    (∃ s', pass.step sep start s = .ok s' ∧ Shrinks s s') ∨
      (pass = .stepOut ∧ pass.step sep start s = .error .aboveStart)
  ends : ∃ s, Visits sep start path .stepOut s ∧ EndsAt sep ending start path s

/-- **Edits stay in their buffer.** A path with a valid prefix is edited in place without an access
outside of the buffer. The text never grows behind the separator that closes it, the prefix stays,
and every scan ends. So a path that is not empty has no normal form only if it steps out of the
place that it starts from. -/
theorem edit_staysInBuffer (sep : Separator) (ending : Ending) (path : Text) (start : Nat)
    (hne : path ≠ []) (hnul : CodeUnit.nul ∉ path) (hstart : Prefix.length? path = some start) :
    Path.normalize sep ending path = .ok (edit sep ending start path).toOption ∧
      StaysInBuffer sep ending start path := by
  have hwithin := visits_within sep path start hne hstart
  refine ⟨?_, ?_, hwithin, ?_, edit_ends sep ending path start hne hstart⟩
  · have hempty : path.isEmpty = false := by simpa using hne
    unfold Path.normalize
    rw [Path.clean_of_not_nul path hnul, ok_bind, hempty, hstart]
    rfl
  · obtain ⟨s, hs, hlength, hopen⟩ := ofPath_within sep path start hne hstart
    have hroom := hopen.size_lt_room
    exact ⟨s, hs, hopen.buffer_size, hlength, by omega⟩
  · intro pass s hvisits hlt
    exact (step_within sep pass (hwithin pass s hvisits) hlt).imp_left
      fun ⟨s', hs', _, hshrinks⟩ => ⟨s', hs', hshrinks⟩

theorem edit_staysInBuffer_home :
    [CodeUnit.tilde, 0x75] ≠ [] ∧ CodeUnit.nul ∉ [CodeUnit.tilde, 0x75] ∧
      Prefix.length? [CodeUnit.tilde, 0x75] = some 3 ∧
      Path.normalize .slash .kept [CodeUnit.tilde, 0x75] =
        .ok (edit .slash .kept 3 [CodeUnit.tilde, 0x75]).toOption ∧
      StaysInBuffer .slash .kept 3 [CodeUnit.tilde, 0x75] :=
  ⟨by decide, by decide, by decide,
    edit_staysInBuffer .slash .kept [CodeUnit.tilde, 0x75] 3 (by decide) (by decide) (by decide)⟩

end Scan

end LexicalPath
