import LexicalPath.Proofs.Text.WellFormed

/-!
# Reading a text from its start to its end

A code point is read at an index and leaves the index behind it. Read so from the start on, a text
ends exactly at its length. What was read is written as the same text, and scalar values that were
written are read again.
-/

namespace LexicalPath.Text

/-! ## One code point -/

/-- The code point at an index and the index behind it. The two halves of a surrogate pair are read
together and every other unit by itself. -/
def readAt? (t : Text) (i : Nat) : Option (CodePoint × Nat) :=
  t[i]?.map fun u =>
    match t[i + 1]? with
    | some v =>
      if u.isHighSurrogate && v.isLowSurrogate then (CodePoint.ofPair u v, i + 2)
      else (u.toNat, i + 1)
    | none => (u.toNat, i + 1)

theorem readAt?_length (t : Text) : t.readAt? t.length = none := by
  unfold readAt?
  rw [List.getElem?_eq_none (Nat.le_refl _), Option.map_none]

theorem readAt?_single (front : Text) (u : CodeUnit) (back : Text) (h : ¬ SplitsPair [u] back) :
    (front ++ u :: back).readAt? front.length = some (u.toNat, front.length + 1) := by
  unfold readAt?
  cases back with
  | nil => simp
  | cons v back =>
    have hpair : ¬ (u.isHighSurrogate = true ∧ v.isLowSurrogate = true) := by
      simpa [SplitsPair] using h
    simp [hpair]

theorem readAt?_pair (front : Text) (u v : CodeUnit) (back : Text) (hu : u.isHighSurrogate = true)
    (hv : v.isLowSurrogate = true) :
    (front ++ u :: v :: back).readAt? front.length =
      some (CodePoint.ofPair u v, front.length + 2) := by
  unfold readAt?
  simp [hu, hv]

/-! ## The whole text -/

/-- Reading from the index `start` on until nothing is left gives the row, and the last index is
`stop`. -/
inductive ReadsAll (t : Text) : Nat → List (CodePoint × Nat) → Nat → Prop where
  | done (i : Nat) (h : t.readAt? i = none) : ReadsAll t i [] i
  | next (start i stop : Nat) (c : CodePoint) (row : List (CodePoint × Nat))
      (h : t.readAt? start = some (c, i)) (hrow : ReadsAll t i row stop) :
      ReadsAll t start ((c, i) :: row) stop

theorem readsAll_append (front back : Text) :
    ReadsAll (front ++ back) front.length (endsFrom front.length back.codePoints)
      (front ++ back).length := by
  fun_induction codePoints back generalizing front with
  | case1 =>
    rw [List.append_nil]
    exact .done front.length (readAt?_length front)
  | case2 u =>
    have hread := readAt?_single front u [] (not_splitsPair_nil_right [u])
    have hrest : ReadsAll (front ++ [u]) (front.length + 1) [] (front ++ [u]).length := by
      rw [List.length_append, List.length_singleton]
      exact .done _ (by simpa using readAt?_length (front ++ [u]))
    rw [endsFrom, CodePoint.unitCount_toNat]
    exact .next _ _ _ _ _ hread hrest
  | case3 u v t hpair ih =>
    rw [Bool.and_eq_true] at hpair
    have hread := readAt?_pair front u v t hpair.1 hpair.2
    have hrest := ih (front ++ [u, v])
    rw [List.append_assoc, List.length_append] at hrest
    rw [endsFrom, CodePoint.unitCount_ofPair u v hpair.1 hpair.2]
    exact .next _ _ _ _ _ hread hrest
  | case4 u v t hpair ih =>
    have hread := readAt?_single front u (v :: t) (by simpa [SplitsPair] using hpair)
    have hrest := ih (front ++ [u])
    rw [List.append_assoc, List.length_append] at hrest
    rw [endsFrom, CodePoint.unitCount_toNat]
    exact .next _ _ _ _ _ hread hrest

theorem endsFrom_fst (start : Nat) (cs : List CodePoint) : (endsFrom start cs).map Prod.fst = cs := by
  induction cs generalizing start with
  | nil => rfl
  | cons c cs ih => rw [endsFrom, List.map_cons, ih]

theorem codePointsWithEnds_fst (t : Text) : t.codePointsWithEnds.map Prod.fst = t.codePoints :=
  endsFrom_fst 0 t.codePoints

/-- **Reading and writing.** Every text is read from its start exactly to its end, and the code
points that are read off it write it again. Scalar values that are written are read again, whatever
their order. -/
theorem reading_inverts_writing :
    (∀ t : Text, ReadsAll t 0 t.codePointsWithEnds t.length ∧
      ofCodePoints (t.codePointsWithEnds.map Prod.fst) = t) ∧
    ∀ cs : List CodePoint, (∀ c ∈ cs, c.isScalar = true) →
      (ofCodePoints cs).codePointsWithEnds.map Prod.fst = cs := by
  constructor
  · intro t
    rw [codePointsWithEnds_fst]
    exact ⟨readsAll_append [] t, ofCodePoints_codePoints t⟩
  · intro cs hscalar
    rw [codePointsWithEnds_fst]
    exact codePoints_ofCodePoints_of_isScalar cs hscalar

theorem reading_inverts_writing_edges :
    (∀ c ∈ [0xD7FF, 0xE000, 0xFFFF, 0x10000, 0x10FFFF], CodePoint.isScalar c = true) ∧
      (ofCodePoints [0xD7FF, 0xE000, 0xFFFF, 0x10000, 0x10FFFF]).codePointsWithEnds.map Prod.fst =
        [0xD7FF, 0xE000, 0xFFFF, 0x10000, 0x10FFFF] :=
  ⟨by decide, reading_inverts_writing.2 _ (by decide)⟩

end LexicalPath.Text
