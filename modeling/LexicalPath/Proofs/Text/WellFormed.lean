import LexicalPath.Proofs.Text.CodePoints

/-!
# Well-formed texts

The check of a text looks at its units, and the reader at its code points. Both find the same
unpaired surrogates, and the check gives the index of the first one.
-/

namespace LexicalPath.Text

/-! ## The first surrogate of a row -/

/-- The index at which the first surrogate of a row is written. -/
def surrogateIdx? : List CodePoint → Option Nat
  | [] => none
  | c :: cs => if c.isSurrogate then some 0 else (surrogateIdx? cs).map (· + c.unitCount)

theorem surrogateIdx?_eq_some_iff (cs : List CodePoint) (i : Nat) :
    surrogateIdx? cs = some i ↔ ∃ before c after, cs = before ++ c :: after ∧ unitSum before = i ∧
      c.isSurrogate = true ∧ ∀ b ∈ before, b.isSurrogate = false := by
  induction cs generalizing i with
  | nil => simp [surrogateIdx?]
  | cons c cs ih =>
    cases hc : c.isSurrogate with
    | true =>
      rw [surrogateIdx?, if_pos hc, Option.some.injEq]
      constructor
      · rintro rfl
        exact ⟨[], c, cs, rfl, rfl, hc, by simp⟩
      · rintro ⟨before, d, after, hcs, rfl, -, hbefore⟩
        cases before with
        | nil => rfl
        | cons b before =>
          obtain ⟨rfl, -⟩ := List.cons.inj hcs
          rw [hbefore c List.mem_cons_self] at hc
          cases hc
    | false =>
      rw [surrogateIdx?, if_neg (by simp [hc]), Option.map_eq_some_iff]
      constructor
      · rintro ⟨j, hj, rfl⟩
        obtain ⟨before, d, after, rfl, rfl, hd, hbefore⟩ := (ih j).mp hj
        exact ⟨c :: before, d, after, rfl, Nat.add_comm _ _, hd, by simpa [hc] using hbefore⟩
      · rintro ⟨before, d, after, hcs, rfl, hd, hbefore⟩
        cases before with
        | nil =>
          obtain ⟨rfl, -⟩ := List.cons.inj hcs
          rw [hc] at hd
          cases hd
        | cons b before =>
          obtain ⟨rfl, rfl⟩ := List.cons.inj hcs
          have htail : ∀ b ∈ before, b.isSurrogate = false :=
            fun b hb => hbefore b (List.mem_cons_of_mem _ hb)
          exact ⟨unitSum before, (ih _).mpr ⟨before, d, after, rfl, rfl, hd, htail⟩,
            Nat.add_comm _ _⟩

theorem surrogateIdx?_eq_none_iff (cs : List CodePoint) :
    surrogateIdx? cs = none ↔ ∀ c ∈ cs, c.isSurrogate = false := by
  induction cs with
  | nil => simp [surrogateIdx?]
  | cons c cs ih => cases hc : c.isSurrogate <;> simp [surrogateIdx?, hc, ih]

/-! ## The check of a text -/

theorem malformedIdx?_cons_pair (u v : CodeUnit) (t : Text) (hu : u.isHighSurrogate = true)
    (hv : v.isLowSurrogate = true) :
    malformedIdx? (u :: v :: t) = (malformedIdx? t).map (· + 2) := by
  rw [malformedIdx?, if_pos hu, if_pos hv]

theorem malformedIdx?_cons_single (u : CodeUnit) (t : Text) (h : ¬ SplitsPair [u] t) :
    malformedIdx? (u :: t) =
      if u.isSurrogate then some 0 else (malformedIdx? t).map (· + 1) := by
  cases t with
  | nil => rfl
  | cons v t =>
    simp only [SplitsPair, List.getLast?_singleton, List.head?_cons, Option.any_some] at h
    rw [malformedIdx?, CodeUnit.isSurrogate_eq_or]
    cases hu : u.isHighSurrogate with
    | true =>
      simp [show v.isLowSurrogate = false by simpa [hu] using h]
    | false => cases u.isLowSurrogate <;> simp

theorem malformedIdx?_eq (t : Text) : t.malformedIdx? = surrogateIdx? t.codePoints := by
  fun_induction codePoints t with
  | case1 => rfl
  | case2 u => exact malformedIdx?_cons_single u [] (not_splitsPair_nil_right [u])
  | case3 u v t hpair ih =>
    rw [Bool.and_eq_true] at hpair
    rw [malformedIdx?_cons_pair u v t hpair.1 hpair.2, ih, surrogateIdx?,
      CodePoint.isSurrogate_ofPair u v hpair.1 hpair.2,
      CodePoint.unitCount_ofPair u v hpair.1 hpair.2, if_neg Bool.false_ne_true]
  | case4 u v t hpair ih =>
    rw [malformedIdx?_cons_single u (v :: t) (by simpa [SplitsPair] using hpair), ih, surrogateIdx?,
      CodePoint.unitCount_toNat]
    rfl

theorem isWellFormed_iff (t : Text) :
    t.isWellFormed = true ↔ ∀ c ∈ t.codePoints, c.isSurrogate = false := by
  rw [isWellFormed, malformedIdx?_eq, Option.isNone_iff_eq_none, surrogateIdx?_eq_none_iff]

/-! ## Rows of scalar values -/

theorem isScalar_of_mem_codePoints (t : Text) (h : t.isWellFormed = true) :
    ∀ c ∈ t.codePoints, c.isScalar = true := by
  intro c hc
  rw [isWellFormed_iff] at h
  exact (CodePoint.isScalar_iff c).mpr ⟨le_of_mem_codePoints t c hc, h c hc⟩

/-- Scalar values can be written in any order, for only surrogates join. -/
theorem codePoints_ofCodePoints_of_isScalar (cs : List CodePoint)
    (h : ∀ c ∈ cs, c.isScalar = true) : codePoints (ofCodePoints cs) = cs := by
  have hproper : ∀ c ∈ cs, c ≤ 0x10FFFF ∧ c.isSurrogate = false :=
    fun c hc => (CodePoint.isScalar_iff c).mp (h c hc)
  apply codePoints_ofCodePoints cs fun c hc => (hproper c hc).1
  apply List.Pairwise.isChain
  apply List.pairwise_of_forall_mem_list
  intro a ha b _ hjoins
  have hsurrogate := (hjoins.isSurrogate a b).1
  rw [(hproper a ha).2] at hsurrogate
  cases hsurrogate

theorem isWellFormed_ofCodePoints (cs : List CodePoint) (h : ∀ c ∈ cs, c.isScalar = true) :
    (ofCodePoints cs).isWellFormed = true := by
  rw [isWellFormed_iff, codePoints_ofCodePoints_of_isScalar cs h]
  exact fun c hc => ((CodePoint.isScalar_iff c).mp (h c hc)).2

/-! ## Unpaired surrogates -/

theorem unpairedAt_iff_codePoints (t : Text) (i : Nat) :
    UnpairedAt t i ↔ ∃ before c after, t.codePoints = before ++ c :: after ∧ unitSum before = i ∧
      c.isSurrogate = true := by
  constructor
  · intro h
    obtain ⟨u, hu, -⟩ := (Option.any_eq_true _ _).mp h.1
    obtain ⟨hi, -⟩ := List.getElem?_eq_some_iff.mp hu
    have hlen : (t.take i).length = i := List.length_take_of_le (Nat.le_of_lt hi)
    have hcut := unpairedAt_iff (t.take i) (t.drop i) h.2.1
    rw [List.take_append_drop, hlen] at hcut
    obtain ⟨c, hhead, hc⟩ := hcut.mp h
    obtain ⟨after, hafter⟩ := List.head?_eq_some_iff.mp hhead
    refine ⟨codePoints (t.take i), c, after, ?_, ?_, hc⟩
    · rw [← hafter, ← codePoints_append _ _ h.2.1, List.take_append_drop]
    · rw [unitSum_codePoints, hlen]
  · rintro ⟨before, c, after, ht, rfl, hc⟩
    exact (unpairedAt_cut t before (c :: after) ht).mpr ⟨c, rfl, hc⟩

theorem isWellFormed_iff_paired (t : Text) :
    t.isWellFormed = true ↔ ∀ i, ¬ UnpairedAt t i := by
  rw [isWellFormed_iff]
  constructor
  · intro h i hi
    obtain ⟨before, c, after, ht, -, hc⟩ := (unpairedAt_iff_codePoints t i).mp hi
    rw [h c (by simp [ht])] at hc
    cases hc
  · intro h c hmem
    obtain ⟨before, after, ht⟩ := List.append_of_mem hmem
    rw [← Bool.not_eq_true]
    intro hc
    exact h _ ((unpairedAt_iff_codePoints t _).mpr ⟨before, c, after, ht, rfl, hc⟩)

end LexicalPath.Text
