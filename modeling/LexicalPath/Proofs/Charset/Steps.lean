import LexicalPath.Proofs.Charset.Encoding

/-!
# Encoding in several calls

Each call goes on where the one before left off, with room of its own. However the room is cut, the
calls together write the encoding of the text in front of their position.
-/

namespace LexicalPath.Charset

open Text

/-! ## The calls one by one -/

/-- One call from the unit at `start` on. -/
def call (cs : Charset) (t : Text) (start room : Nat) : Step :=
  let r := cs.encodeInto room (t.drop start)
  ⟨r.written, start + r.consumed, r.status⟩

/-- The position that calls from `start` on have come to. -/
def position (start : Nat) (steps : List Step) : Nat := (steps.getLast?.map Step.next).getD start

/-- A code point that the charset lacks is at the position, be it a surrogate or not. -/
def Stuck (cs : Charset) (t : Text) (start : Nat) : Prop :=
  ∃ c, (codePoints (t.drop start)).head? = some c ∧ cs.width? c = none

section

variable (cs : Charset) (t : Text)

@[simp]
theorem encodeSteps_nil (start : Nat) : cs.encodeSteps t start [] = [] := rfl

theorem encodeSteps_cons (start room : Nat) (rooms : List Nat) :
    cs.encodeSteps t start (room :: rooms) =
      cs.call t start room :: cs.encodeSteps t (cs.call t start room).next rooms := rfl

@[simp]
theorem position_nil (start : Nat) : position start [] = start := rfl

@[simp]
theorem position_cons (start : Nat) (s : Step) (steps : List Step) :
    position start (s :: steps) = position s.next steps := by
  unfold position
  rw [List.getLast?_cons]
  cases steps.getLast? <;> rfl

theorem encodeSteps_append (start : Nat) (before after : List Nat) :
    cs.encodeSteps t start (before ++ after) =
      cs.encodeSteps t start before ++
        cs.encodeSteps t (position start (cs.encodeSteps t start before)) after := by
  induction before generalizing start with
  | nil => rfl
  | cons room before ih =>
    rw [List.cons_append, encodeSteps_cons, ih, encodeSteps_cons, position_cons, List.cons_append]

theorem call_of_stuck (start room : Nat) (h : cs.Stuck t start) :
    (cs.call t start room).written = [] ∧ (cs.call t start room).next = start := by
  obtain ⟨c, hc, hwidth⟩ := h
  obtain ⟨rest, hrest⟩ := List.head?_eq_some_iff.mp hc
  unfold call
  rw [encodeInto_eq, hrest]
  cases hsurrogate : c.isSurrogate <;> simp [runOn, Run.stopped, hsurrogate, hwidth]

theorem encodeSteps_of_stuck (start : Nat) (rooms : List Nat) (h : cs.Stuck t start) :
    ∀ s ∈ cs.encodeSteps t start rooms, s.next = start ∧ s.written = [] := by
  induction rooms with
  | nil => simp
  | cons room rooms ih =>
    obtain ⟨hwritten, hnext⟩ := cs.call_of_stuck t start room h
    intro s hs
    rw [encodeSteps_cons, hnext, List.mem_cons] at hs
    rcases hs with rfl | hs
    · exact ⟨hnext, hwritten⟩
    · exact ih s hs

/-! ## What a call leaves -/

/-- Calls have come to the unit at `pos`, between two code points, and have written `out`. -/
def Reached (pos : Nat) (out : Bytes) : Prop :=
  ∃ done rest n, t.codePoints = done ++ rest ∧ cs.widthSum? done = some n ∧ pos = unitSum done ∧
    out = done.flatMap cs.bytes

theorem reached_zero : Reached cs t 0 [] := ⟨[], t.codePoints, 0, rfl, rfl, rfl, rfl⟩

theorem Reached.encode? (pos : Nat) (out : Bytes) (h : Reached cs t pos out) :
    cs.encode? (t.take pos) = some out := by
  obtain ⟨done, rest, n, ht, hsum, rfl, rfl⟩ := h
  have hdone := (codePoints_cut t done rest ht).2.2.1
  rw [encode?_eq, encodedLength?_eq, hdone, hsum]
  rfl

theorem Reached.spells (pos : Nat) (out : Bytes) (h : Reached cs t pos out) :
    Spells cs (codePoints (t.take pos)) out := by
  obtain ⟨done, rest, n, ht, hsum, rfl, rfl⟩ := h
  rw [(codePoints_cut t done rest ht).2.2.1]
  exact cs.spells_flatMap_bytes done n hsum

/-- How a call of the encoder with `room` bytes of room goes from the unit at `start` to the unit at
`s.next`, and when it ends with which status. -/
structure Lawful (start room : Nat) (s : Step) : Prop where
  whole : ∃ done run rest, t.codePoints = done ++ run ++ rest ∧ start = unitSum done ∧
    s.next = unitSum (done ++ run) ∧ Spells cs run s.written
  fits : s.written.length ≤ room
  overflow : s.status = .overflow ↔ ∃ c form, (codePoints (t.drop s.next)).head? = some c ∧
    Codes cs c form ∧ room - s.written.length < form.length
  malformed : s.status = .malformed ↔ UnpairedAt t s.next
  unmappable : s.status = .unmappable ↔ ∃ c, (codePoints (t.drop s.next)).head? = some c ∧
    c.isSurrogate = false ∧ ∀ form, ¬ Codes cs c form
  underflow : s.status = .underflow ↔ s.next = t.length

theorem call_spec (start room : Nat) (out : Bytes) (h : Reached cs t start out) :
    Reached cs t (cs.call t start room).next (out ++ (cs.call t start room).written) ∧
      Lawful cs t start room (cs.call t start room) ∧
      ((cs.call t start room).status = .malformed ∨ (cs.call t start room).status = .unmappable →
        cs.Stuck t (cs.call t start room).next) := by
  obtain ⟨done, left, n, ht, hdone, rfl, rfl⟩ := h
  have hleft := (codePoints_cut t done left ht).2.2.2
  obtain ⟨run, rest, k, status, rfl, hrun, hk, hstops, hcall⟩ := cs.runOn_spec room left
  have hcalled : cs.call t (unitSum done) room =
      ⟨run.flatMap cs.bytes, unitSum (done ++ run), status⟩ := by
    unfold call
    rw [encodeInto_eq, hleft, hcall, unitSum_append]
  have hlength : (run.flatMap cs.bytes).length = k := cs.length_flatMap_bytes run k hrun
  rw [← List.append_assoc] at ht
  have hrest := (codePoints_cut t (done ++ run) rest ht).2.2.2
  obtain ⟨hunderflow, hoverflow, hmalformed, hunmappable⟩ := hstops.status_iff
  rw [hcalled]
  refine ⟨⟨done ++ run, rest, n + k, ht, ?_, rfl, List.flatMap_append.symm⟩, ?_, ?_⟩
  · rw [widthSum?_append, hdone, hrun]
    rfl
  · constructor
    · exact ⟨done, run, rest, ht, rfl, rfl, cs.spells_flatMap_bytes run k hrun⟩
    · exact Nat.le_trans (Nat.le_of_eq hlength) hk
    · rw [hrest, hlength]
      exact hoverflow
    · exact hmalformed.trans (unpairedAt_cut t (done ++ run) rest ht).symm
    · rw [hrest]
      exact hunmappable
    · -- The text ends where no code point is left.
      rw [hunderflow, ← unitSum_codePoints t, ht, unitSum_append _ rest, Nat.left_eq_add,
        unitSum_eq_zero]
  · unfold Stuck
    rw [hrest]
    exact hstops.width?_eq_none cs _ rest status

theorem encodeSteps_reached (start : Nat) (out : Bytes) (rooms : List Nat)
    (h : Reached cs t start out) :
    Reached cs t (position start (cs.encodeSteps t start rooms))
      (out ++ (cs.encodeSteps t start rooms).flatMap Step.written) := by
  induction rooms generalizing start out with
  | nil => simpa using h
  | cons room rooms ih =>
    rw [encodeSteps_cons, position_cons, List.flatMap_cons, ← List.append_assoc]
    exact ih _ _ (cs.call_spec t start room out h).1

/-- **Calls with room of any sizes.** Every call of every list of calls is lawful, and what has been
written up to its end spells the text up to its position, as the encoding of that part in one go
does. If the call stops at something that the charset cannot encode, no later call gets any
further. -/
theorem encodeSteps_lawful (before : List Nat) (room : Nat) (after : List Nat) :
    ∃ s, cs.encodeSteps t 0 (before ++ room :: after) =
        cs.encodeSteps t 0 before ++ s :: cs.encodeSteps t s.next after ∧
      Lawful cs t (position 0 (cs.encodeSteps t 0 before)) room s ∧
      Spells cs (codePoints (t.take s.next))
        ((cs.encodeSteps t 0 before ++ [s]).flatMap Step.written) ∧
      cs.encode? (t.take s.next) =
        some ((cs.encodeSteps t 0 before ++ [s]).flatMap Step.written) ∧
      (s.status = .malformed ∨ s.status = .unmappable →
        ∀ later ∈ cs.encodeSteps t s.next after, later.next = s.next ∧ later.written = []) := by
  have hbefore := cs.encodeSteps_reached t 0 [] before (cs.reached_zero t)
  obtain ⟨hreached, hlawful, hstuck⟩ := cs.call_spec t _ room _ hbefore
  rw [List.nil_append] at hreached
  refine ⟨_, ?_, hlawful, ?_, ?_, ?_⟩
  · rw [encodeSteps_append, encodeSteps_cons]
  · rw [List.flatMap_append, List.flatMap_singleton]
    exact hreached.spells
  · rw [List.flatMap_append, List.flatMap_singleton]
    exact hreached.encode?
  · intro hs
    exact cs.encodeSteps_of_stuck t _ after (hstuck hs)

end

theorem encodeSteps_lawful_stops :
    utf8.encodeSteps [0x61, 0xD83D, 0xDE00, 0xDC00] 0 [0, 3, 4, 5] =
        [⟨[], 0, .overflow⟩, ⟨[0x61], 1, .overflow⟩,
          ⟨[0xF0, 0x9F, 0x98, 0x80], 3, .malformed⟩, ⟨[], 3, .malformed⟩] ∧
      Lawful utf8 [0x61, 0xD83D, 0xDE00, 0xDC00] 1 4
        ⟨[0xF0, 0x9F, 0x98, 0x80], 3, .malformed⟩ ∧
      Spells utf8 [0x61, 0x1F600] [0x61, 0xF0, 0x9F, 0x98, 0x80] ∧
      UnpairedAt [0x61, 0xD83D, 0xDE00, 0xDC00] 3 := by
  have hsteps : utf8.encodeSteps [0x61, 0xD83D, 0xDE00, 0xDC00] 0 [0, 3, 4, 5] =
      [⟨[], 0, .overflow⟩, ⟨[0x61], 1, .overflow⟩,
        ⟨[0xF0, 0x9F, 0x98, 0x80], 3, .malformed⟩, ⟨[], 3, .malformed⟩] := by
    decide +kernel
  obtain ⟨s, hsplit, hlawful, hspells, -⟩ :=
    encodeSteps_lawful utf8 [0x61, 0xD83D, 0xDE00, 0xDC00] [0, 3] 4 [5]
  have hbefore : utf8.encodeSteps [0x61, 0xD83D, 0xDE00, 0xDC00] 0 [0, 3] =
      [⟨[], 0, .overflow⟩, ⟨[0x61], 1, .overflow⟩] := by
    decide +kernel
  rw [List.cons_append, List.singleton_append, hsteps, hbefore] at hsplit
  obtain rfl := (List.cons.inj (List.cons.inj (List.cons.inj hsplit).2).2).1
  rw [hbefore] at hlawful hspells
  exact ⟨hsteps, hlawful, hspells, hlawful.malformed.mp rfl⟩

end LexicalPath.Charset
