import LexicalPath.Proofs.Charset.Forms
import LexicalPath.Proofs.Text.WellFormed
import Mathlib.Tactic.SplitIfs

/-!
# One call of the encoder

A call writes whole code points as long as they are in the charset and fit the room. What stops it
is the code point that it stands at. The loops over the units are brought down to the row of code
points that is read off the text.
-/

namespace LexicalPath.Charset

open Text

/-! ## Rows of code points -/

/-- The number of bytes of a row of code points, if the charset has all of them. -/
def widthSum? (cs : Charset) : List CodePoint → Option Nat
  | [] => some 0
  | c :: rest => (cs.width? c).bind fun n => (cs.widthSum? rest).map (n + ·)

/-- Encodes code points while they fit into `room` bytes. -/
def runOn (cs : Charset) (room : Nat) : List CodePoint → Run
  | [] => .stopped .underflow
  | c :: rest =>
    if c.isSurrogate then .stopped .malformed
    else match cs.width? c with
      | none => .stopped .unmappable
      | some n =>
        if room < n then .stopped .overflow
        else (cs.runOn (room - n) rest).prepend (cs.bytes c) c.unitCount

/-! ## Widths -/

theorem length_encodeScalar (c : CodePoint) :
    (Utf8.encodeScalar c).length =
      if c < 0x80 then 1 else if c < 0x800 then 2 else if c < 0x10000 then 3 else 4 := by
  unfold Utf8.encodeScalar
  split_ifs <;> rfl

theorem length_flatMap_toUnits (f : CodeUnit → Bytes) (hf : ∀ u, (f u).length = 2) (c : CodePoint) :
    (c.toUnits.flatMap f).length = if c < 0x10000 then 2 else 4 := by
  unfold CodePoint.toUnits
  split_ifs <;> simp [hf]

theorem length_bytes (cs : Charset) (c : CodePoint) (n : Nat) (h : cs.width? c = some n) :
    (cs.bytes c).length = n := by
  unfold width? at h
  split at h
  · cases h
  cases cs with
  | utf8 => exact (length_encodeScalar c).trans (Option.some.inj h)
  | usAscii | latin1 =>
    simp only [Option.ite_none_right_eq_some] at h
    exact Option.some.inj h.2
  | utf16LE | utf16BE =>
    exact (length_flatMap_toUnits _ (fun _ => rfl) c).trans (Option.some.inj h)

section

variable (cs : Charset)

theorem forall_not_codes_iff (c : CodePoint) :
    (∀ form, ¬ Codes cs c form) ↔ cs.width? c = none := by
  cases hwidth : cs.width? c <;> simp [codes_iff, hwidth]

theorem exists_codes_longer_iff (left : Nat) (c : CodePoint) :
    (∃ form, Codes cs c form ∧ left < form.length) ↔ ∃ n, cs.width? c = some n ∧ left < n := by
  cases hwidth : cs.width? c with
  | none => simp [codes_iff, hwidth]
  | some n => simp [codes_iff, hwidth, cs.length_bytes c n hwidth]

theorem widthSum?_cons_eq_some_iff (c : CodePoint) (xs : List CodePoint) (n : Nat) :
    cs.widthSum? (c :: xs) = some n ↔
      ∃ k m, cs.width? c = some k ∧ cs.widthSum? xs = some m ∧ k + m = n := by
  simp [widthSum?, Option.bind_eq_some_iff]

theorem widthSum?_append (xs ys : List CodePoint) :
    cs.widthSum? (xs ++ ys) = (cs.widthSum? xs).bind fun n => (cs.widthSum? ys).map (n + ·) := by
  induction xs with
  | nil => simp [widthSum?]
  | cons c xs ih =>
    simp only [List.cons_append, widthSum?, ih]
    cases cs.width? c with
    | none => rfl
    | some k =>
      cases cs.widthSum? xs with
      | none => rfl
      | some n => simp [Nat.add_assoc, Function.comp_def]

theorem widthSum?_append_eq_some_iff (xs ys : List CodePoint) (n : Nat) :
    cs.widthSum? (xs ++ ys) = some n ↔
      ∃ k m, cs.widthSum? xs = some k ∧ cs.widthSum? ys = some m ∧ k + m = n := by
  simp [widthSum?_append, Option.bind_eq_some_iff]

theorem length_flatMap_bytes (xs : List CodePoint) (n : Nat) (h : cs.widthSum? xs = some n) :
    (xs.flatMap cs.bytes).length = n := by
  induction xs generalizing n with
  | nil => simpa [widthSum?] using h
  | cons c xs ih =>
    obtain ⟨k, m, hk, hm, rfl⟩ := (cs.widthSum?_cons_eq_some_iff c xs n).mp h
    rw [List.flatMap_cons, List.length_append, cs.length_bytes c k hk, ih m hm]

theorem spells_flatMap_bytes (xs : List CodePoint) (n : Nat) (h : cs.widthSum? xs = some n) :
    Spells cs xs (xs.flatMap cs.bytes) := by
  induction xs generalizing n with
  | nil => exact .nil
  | cons c xs ih =>
    obtain ⟨k, m, hk, hm, rfl⟩ := (cs.widthSum?_cons_eq_some_iff c xs n).mp h
    have hc := (cs.codes_iff c (cs.bytes c)).mpr ⟨Option.isSome_of_eq_some hk, rfl⟩
    rw [List.flatMap_cons]
    exact .cons c _ xs _ hc (ih m hm)

theorem widthSum?_le (xs : List CodePoint) (n : Nat) (h : cs.widthSum? xs = some n) :
    n ≤ cs.maxBytesPerUnit * unitSum xs := by
  induction xs generalizing n with
  | nil =>
    obtain rfl := Option.some.inj h
    exact Nat.zero_le _
  | cons c xs ih =>
    obtain ⟨k, m, hk, hm, rfl⟩ := (cs.widthSum?_cons_eq_some_iff c xs n).mp h
    have hc := (cs.width?_bounds c k hk).2.2
    have hxs := ih m hm
    rw [unitSum_cons, Nat.mul_add]
    exact Nat.add_le_add hc hxs

/-! ## From units to code points -/

theorem encodedLength?_cons_pair (u v : CodeUnit) (t : Text) (hu : u.isHighSurrogate = true)
    (hv : v.isLowSurrogate = true) :
    cs.encodedLength? (u :: v :: t) =
      (cs.width? (CodePoint.ofPair u v)).bind fun n => (cs.encodedLength? t).map (n + ·) := by
  simp [encodedLength?, CodeUnit.isUnpaired, hu, hv]

theorem isUnpaired_of_not_splitsPair (u : CodeUnit) (t : Text) (h : ¬ SplitsPair [u] t) :
    u.isUnpaired t.head? = u.isSurrogate := by
  rw [CodeUnit.isUnpaired]
  cases hu : u.isHighSurrogate <;> simp_all [SplitsPair]

theorem encodedLength?_cons_single (u : CodeUnit) (t : Text) (h : ¬ SplitsPair [u] t) :
    cs.encodedLength? (u :: t) =
      (cs.width? u.toNat).bind fun n => (cs.encodedLength? t).map (n + ·) := by
  have hunpaired := isUnpaired_of_not_splitsPair u t h
  -- An unpaired surrogate has no width either, so nothing is lost without the check for it.
  have hwidth (hu : u.isSurrogate = true) : cs.width? u.toNat = none :=
    cs.width?_surrogate u.toNat hu
  cases t with
  | nil =>
    rw [List.head?_nil] at hunpaired
    cases hu : u.isSurrogate <;> simp [encodedLength?, hunpaired, hu, hwidth]
  | cons v t =>
    rw [List.head?_cons] at hunpaired
    have hpair : (u.isHighSurrogate && v.isLowSurrogate) = false := by simpa [SplitsPair] using h
    rw [encodedLength?, hunpaired, hpair]
    cases hu : u.isSurrogate <;> simp [hu, hwidth]

theorem encodedLength?_eq (t : Text) : cs.encodedLength? t = cs.widthSum? t.codePoints := by
  fun_induction codePoints t with
  | case1 => rfl
  | case2 u => exact cs.encodedLength?_cons_single u [] (not_splitsPair_nil_right [u])
  | case3 u v t hpair ih =>
    rw [Bool.and_eq_true] at hpair
    rw [cs.encodedLength?_cons_pair u v t hpair.1 hpair.2, ih]
    rfl
  | case4 u v t hpair ih =>
    rw [cs.encodedLength?_cons_single u _ (by simpa [SplitsPair] using hpair), ih]
    rfl

theorem ofText?_toUnits (c : CodePoint) (h : c.isScalar = true) :
    Utf8.ofText? c.toUnits = some (Utf8.encodeScalar c) := by
  have hmax := ((CodePoint.isScalar_iff c).mp h).1
  have hwell := isWellFormed_ofCodePoints [c] (by simpa using h)
  rw [ofCodePoints_cons, ofCodePoints, List.flatMap_nil, List.append_nil] at hwell
  rw [Utf8.ofText?, if_pos hwell, codePoints_toUnits c hmax, List.flatMap_singleton]

/-- Room and charset alone tell whether a code point is written. The conversion of its units never
fails and gives as many bytes as its width. -/
theorem write_eq (room : Nat) (c : CodePoint) :
    cs.write room c c.toUnits =
      match cs.width? c with
      | none => .error .unmappable
      | some n => if room < n then .error .overflow else .ok (cs.bytes c) := by
  unfold write
  cases hwidth : cs.width? c with
  | none => rfl
  | some n =>
    by_cases hroom : room < n
    · simp [hroom]
    · have hlength := cs.length_bytes c n hwidth
      cases cs with
      | utf8 =>
        have hbytes := ofText?_toUnits c (isScalar_of_width? utf8 c n hwidth)
        have hwithin : Utf8.ofTextWithin? n c.toUnits = some (bytes utf8 c) := by
          rw [Utf8.ofTextWithin?, hbytes, ← hlength]
          simp [bytes]
        simp [hroom, hwithin, hlength]
      | usAscii | latin1 | utf16LE | utf16BE => simp [hroom, bytes]

theorem runOn_cons (room : Nat) (c : CodePoint) (rest : List CodePoint) :
    cs.runOn room (c :: rest) =
      if c.isSurrogate then .stopped .malformed
      else .following c.unitCount (fun s => cs.runOn (room - s.length) rest)
        (cs.write room c c.toUnits) := by
  rw [runOn, write_eq]
  cases hwidth : cs.width? c with
  | none => rfl
  | some n =>
    by_cases hroom : room < n
    · simp [hroom, Run.following]
    · simp [hroom, Run.following, cs.length_bytes c n hwidth]

theorem encodeInto_cons_pair (room : Nat) (u v : CodeUnit) (t : Text)
    (hu : u.isHighSurrogate = true) (hv : v.isLowSurrogate = true) :
    cs.encodeInto room (u :: v :: t) =
      .following 2 (fun s => cs.encodeInto (room - s.length) t)
        (cs.write room (CodePoint.ofPair u v) [u, v]) := by
  rw [encodeInto, if_pos hu, if_pos hv]

theorem encodeInto_cons_single (room : Nat) (u : CodeUnit) (t : Text) (h : ¬ SplitsPair [u] t) :
    cs.encodeInto room (u :: t) =
      if u.isSurrogate then .stopped .malformed
      else .following 1 (fun s => cs.encodeInto (room - s.length) t)
        (cs.write room u.toNat [u]) := by
  rw [CodeUnit.isSurrogate_eq_or]
  cases t with
  | nil =>
    rw [encodeInto]
    cases u.isHighSurrogate <;> cases u.isLowSurrogate <;> rfl
  | cons v t =>
    have hpair : u.isHighSurrogate = true → v.isLowSurrogate = false := by
      simpa [SplitsPair] using h
    rw [encodeInto]
    cases hu : u.isHighSurrogate with
    | true => simp [hpair hu]
    | false => cases u.isLowSurrogate <;> rfl

/-- The loop over the units stops for the surrogates that are read as code points of their own. -/
theorem encodeInto_eq (room : Nat) (t : Text) :
    cs.encodeInto room t = cs.runOn room t.codePoints := by
  fun_induction codePoints t generalizing room with
  | case1 => rfl
  | case2 u =>
    rw [cs.encodeInto_cons_single room u [] (not_splitsPair_nil_right [u]), runOn_cons,
      CodePoint.toUnits_toNat, CodePoint.unitCount_toNat]
    simp only [encodeInto, runOn]
    rfl
  | case3 u v t hpair ih =>
    rw [Bool.and_eq_true] at hpair
    have hsurrogate := CodePoint.isSurrogate_ofPair u v hpair.1 hpair.2
    rw [cs.encodeInto_cons_pair room u v t hpair.1 hpair.2, runOn_cons, hsurrogate,
      CodePoint.toUnits_ofPair u v hpair.1 hpair.2, CodePoint.unitCount_ofPair u v hpair.1 hpair.2]
    simp [ih]
  | case4 u v t hpair ih =>
    rw [cs.encodeInto_cons_single room u _ (by simpa [SplitsPair] using hpair), runOn_cons,
      CodePoint.toUnits_toNat, CodePoint.unitCount_toNat]
    simp only [ih]
    rfl

theorem encodedLength?_append_eq_some_iff (front back : Text) (n : Nat)
    (h : ¬ SplitsPair front back) :
    cs.encodedLength? (front ++ back) = some n ↔ ∃ k m, cs.encodedLength? front = some k ∧
      cs.encodedLength? back = some m ∧ k + m = n := by
  simp only [encodedLength?_eq]
  rw [codePoints_append front back h, widthSum?_append_eq_some_iff]

theorem encodedLength?_le (t : Text) (n : Nat) (h : cs.encodedLength? t = some n) :
    n ≤ cs.maxBytesPerUnit * t.length := by
  rw [encodedLength?_eq] at h
  rw [← unitSum_codePoints t]
  exact cs.widthSum?_le _ n h

/-! ## What a call does -/

/-- What stops the encoder in front of the code points `rest` with `left` bytes of room. -/
inductive Stops (left : Nat) : (rest : List CodePoint) → Status → Prop where
  | underflow : Stops left [] .underflow
  | malformed (c : CodePoint) (rest : List CodePoint) (hc : c.isSurrogate = true) :
      Stops left (c :: rest) .malformed
  | unmappable (c : CodePoint) (rest : List CodePoint) (hc : c.isSurrogate = false)
      (hwidth : cs.width? c = none) : Stops left (c :: rest) .unmappable
  | overflow (c : CodePoint) (rest : List CodePoint) (n : Nat) (hwidth : cs.width? c = some n)
      (hleft : left < n) : Stops left (c :: rest) .overflow

theorem Stops.status_iff (left : Nat) (rest : List CodePoint) (status : Status)
    (h : Stops cs left rest status) :
    (status = .underflow ↔ rest = []) ∧
      (status = .overflow ↔
        ∃ c form, rest.head? = some c ∧ Codes cs c form ∧ left < form.length) ∧
      (status = .malformed ↔ ∃ c, rest.head? = some c ∧ c.isSurrogate = true) ∧
      (status = .unmappable ↔
        ∃ c, rest.head? = some c ∧ c.isSurrogate = false ∧ ∀ form, ¬ Codes cs c form) := by
  simp only [exists_and_left, forall_not_codes_iff, exists_codes_longer_iff]
  cases h with
  | underflow => simp
  | malformed c rest hc => simp [hc, cs.width?_surrogate c hc]
  | unmappable c rest hc hwidth => simp [hc, hwidth]
  | overflow c rest n hwidth hleft =>
    have hc := (CodePoint.isScalar_iff c).mp (cs.isScalar_of_width? c n hwidth)
    simp [hc.2, hwidth, hleft]

theorem Stops.width?_eq_none (left : Nat) (rest : List CodePoint) (status : Status)
    (h : Stops cs left rest status) (hstatus : status = .malformed ∨ status = .unmappable) :
    ∃ c, rest.head? = some c ∧ cs.width? c = none := by
  cases h with
  | underflow => simp at hstatus
  | malformed c rest hc => exact ⟨c, rfl, cs.width?_surrogate c hc⟩
  | unmappable c rest _ hwidth => exact ⟨c, rfl, hwidth⟩
  | overflow => simp at hstatus

theorem runOn_spec (room : Nat) (xs : List CodePoint) :
    ∃ done rest n status, xs = done ++ rest ∧ cs.widthSum? done = some n ∧ n ≤ room ∧
      Stops cs (room - n) rest status ∧
      cs.runOn room xs = ⟨done.flatMap cs.bytes, unitSum done, status⟩ := by
  induction xs generalizing room with
  | nil => exact ⟨[], [], 0, _, rfl, rfl, Nat.zero_le room, .underflow, rfl⟩
  | cons c xs ih =>
    unfold runOn
    cases hc : c.isSurrogate with
    | true =>
      exact ⟨[], c :: xs, 0, _, rfl, rfl, Nat.zero_le room, .malformed c xs hc, rfl⟩
    | false =>
      cases hwidth : cs.width? c with
      | none =>
        exact ⟨[], c :: xs, 0, _, rfl, rfl, Nat.zero_le room, .unmappable c xs hc hwidth, rfl⟩
      | some k =>
        by_cases hroom : room < k
        · refine ⟨[], c :: xs, 0, _, rfl, rfl, Nat.zero_le room, .overflow c xs k hwidth hroom, ?_⟩
          simp [hroom, Run.stopped]
        · obtain ⟨done, rest, n, status, rfl, hsum, hn, hstops, hrun⟩ := ih (room - k)
          refine ⟨c :: done, rest, k + n, status, rfl, ?_, by omega, ?_, ?_⟩
          · exact (cs.widthSum?_cons_eq_some_iff c done _).mpr ⟨k, n, hwidth, hsum, rfl⟩
          · rwa [← Nat.sub_sub]
          · simp [hroom, hrun, Run.prepend]

theorem Stops.of_widthSum? (left : Nat) (rest : List CodePoint) (status : Status) (m : Nat)
    (h : Stops cs left rest status) (hsum : cs.widthSum? rest = some m) :
    (rest = [] ∧ status = .underflow) ∨ ∃ c tail n, rest = c :: tail ∧ status = .overflow ∧
      cs.width? c = some n ∧ left < n ∧ n ≤ m := by
  cases h with
  | underflow => exact Or.inl ⟨rfl, rfl⟩
  | malformed c tail hc => simp [widthSum?, cs.width?_surrogate c hc] at hsum
  | unmappable c tail hc hwidth => simp [widthSum?, hwidth] at hsum
  | overflow c tail n hwidth hleft =>
    obtain ⟨k, j, hk, -, rfl⟩ := (cs.widthSum?_cons_eq_some_iff c tail m).mp hsum
    obtain rfl := Option.some.inj (hwidth.symm.trans hk)
    exact Or.inr ⟨c, tail, n, rfl, rfl, hwidth, hleft, Nat.le_add_right n j⟩

theorem Stops.longest (room k m j : Nat) (done rest front back : List CodePoint) (status : Status)
    (h : Stops cs (room - k) rest status) (hdone : cs.widthSum? done = some k)
    (hrest : cs.widthSum? rest = some m) (heq : done ++ rest = front ++ back)
    (hfront : cs.widthSum? front = some j) (hj : j ≤ room) : unitSum front ≤ unitSum done := by
  rcases List.append_eq_append_iff.mp heq with ⟨more, rfl, hmore⟩ | ⟨more, rfl, -⟩
  · cases more with
    | nil => simp
    | cons c more =>
      -- The next code point does not fit behind `done`, so it does not fit into `front`.
      obtain ⟨k', i, hk', hi, rfl⟩ := (cs.widthSum?_append_eq_some_iff _ _ j).mp hfront
      obtain rfl := Option.some.inj (hdone.symm.trans hk')
      rcases h.of_widthSum? cs _ _ _ m hrest with ⟨rfl, -⟩ | ⟨d, tail, n, rfl, -, hwidth, hleft, -⟩
      · cases hmore
      · obtain ⟨rfl, -⟩ := List.cons.inj hmore
        obtain ⟨n', l, hn', -, rfl⟩ := (cs.widthSum?_cons_eq_some_iff d more i).mp hi
        obtain rfl := Option.some.inj (hwidth.symm.trans hn')
        omega
  · rw [unitSum_append]
    exact Nat.le_add_right _ _

theorem runOn_of_le (room : Nat) (xs : List CodePoint) (n : Nat) (h : cs.widthSum? xs = some n)
    (hn : n ≤ room) : cs.runOn room xs = ⟨xs.flatMap cs.bytes, unitSum xs, .underflow⟩ := by
  obtain ⟨done, rest, k, status, rfl, hsum, -, hstops, hrun⟩ := cs.runOn_spec room xs
  obtain ⟨k', m, hk', hm, rfl⟩ := (cs.widthSum?_append_eq_some_iff _ _ n).mp h
  obtain rfl := Option.some.inj (hsum.symm.trans hk')
  rcases hstops.of_widthSum? cs _ _ _ m hm with ⟨rfl, rfl⟩ | ⟨c, tail, w, -, -, -, hleft, hw⟩
  · simpa using hrun
  · omega

theorem encode?_eq (t : Text) :
    cs.encode? t = (cs.encodedLength? t).map fun _ => t.codePoints.flatMap cs.bytes := by
  unfold encode?
  cases h : cs.encodedLength? t with
  | none => rfl
  | some n =>
    have hsum : cs.widthSum? t.codePoints = some n := by rw [← encodedLength?_eq, h]
    rw [Option.bind_some, encodeInto_eq, cs.runOn_of_le n t.codePoints n hsum (Nat.le_refl n)]
    rfl

end

end LexicalPath.Charset
