import LexicalPath.Text.CodePoint
import Mathlib.Data.List.Chain

/-!
# Texts as rows of code points

A text that is read by code points and written again is the same text. The rows that are read off
texts are those in which no two neighbours would be read as one code point.
-/

namespace LexicalPath

/-! ## Single code points -/

theorem CodeUnit.isHighSurrogate_iff (u : CodeUnit) :
    u.isHighSurrogate = true ↔ 0xD800 ≤ u.toNat ∧ u.toNat ≤ 0xDBFF := by
  simp [isHighSurrogate]

theorem CodeUnit.isLowSurrogate_iff (u : CodeUnit) :
    u.isLowSurrogate = true ↔ 0xDC00 ≤ u.toNat ∧ u.toNat ≤ 0xDFFF := by
  simp [isLowSurrogate]

namespace CodePoint

theorem isSurrogate_iff (c : Nat) : isSurrogate c = true ↔ 0xD800 ≤ c ∧ c ≤ 0xDFFF := by
  simp [isSurrogate]

theorem isScalar_iff (c : Nat) : isScalar c = true ↔ c ≤ 0x10FFFF ∧ isSurrogate c = false := by
  simp [isScalar]

theorem isScalar_iff_ranges (c : Nat) :
    isScalar c = true ↔ c < 0xD800 ∨ (0xDFFF < c ∧ c ≤ 0x10FFFF) := by
  rw [isScalar_iff, ← Bool.not_eq_true, isSurrogate_iff]
  omega

theorem ofPair_bounds (u v : CodeUnit) (hu : u.isHighSurrogate = true)
    (hv : v.isLowSurrogate = true) : 0x10000 ≤ ofPair u v ∧ ofPair u v ≤ 0x10FFFF := by
  rw [CodeUnit.isHighSurrogate_iff] at hu
  rw [CodeUnit.isLowSurrogate_iff] at hv
  unfold ofPair CodePoint
  omega

theorem isSurrogate_ofPair (u v : CodeUnit) (hu : u.isHighSurrogate = true)
    (hv : v.isLowSurrogate = true) : isSurrogate (ofPair u v) = false := by
  have hbounds := ofPair_bounds u v hu hv
  rw [Bool.eq_false_iff, Ne, isSurrogate_iff]
  unfold CodePoint at *
  omega

theorem unitCount_ofPair (u v : CodeUnit) (hu : u.isHighSurrogate = true)
    (hv : v.isLowSurrogate = true) : unitCount (ofPair u v) = 2 :=
  if_neg (Nat.not_lt.mpr (ofPair_bounds u v hu hv).1)

theorem unitCount_toNat (u : CodeUnit) : unitCount u.toNat = 1 := if_pos (UInt16.toNat_lt u)

theorem toUnits_toNat (u : CodeUnit) : toUnits u.toNat = [u] := by
  unfold toUnits
  rw [if_pos (UInt16.toNat_lt u), UInt16.ofNat_toNat]

theorem toUnits_ofPair (u v : CodeUnit) (hu : u.isHighSurrogate = true)
    (hv : v.isLowSurrogate = true) : toUnits (ofPair u v) = [u, v] := by
  have hbounds := ofPair_bounds u v hu hv
  rw [CodeUnit.isHighSurrogate_iff] at hu
  rw [CodeUnit.isLowSurrogate_iff] at hv
  have hhigh : 0xD800 + (ofPair u v - 0x10000) / 0x400 = u.toNat := by
    unfold ofPair CodePoint
    omega
  have hlow : 0xDC00 + (ofPair u v - 0x10000) % 0x400 = v.toNat := by
    unfold ofPair CodePoint
    omega
  unfold toUnits
  rw [if_neg (Nat.not_lt.mpr hbounds.1), hhigh, hlow, UInt16.ofNat_toNat, UInt16.ofNat_toNat]

theorem toUnits_single (c : Nat) (hc : c < 0x10000) :
    ∃ u : CodeUnit, toUnits c = [u] ∧ u.toNat = c := by
  refine ⟨_, if_pos hc, ?_⟩
  rw [UInt16.toNat_ofNat']
  exact Nat.mod_eq_of_lt hc

theorem toUnits_pair (c : Nat) (hc : 0x10000 ≤ c) (hmax : c ≤ 0x10FFFF) :
    ∃ u v : CodeUnit, toUnits c = [u, v] ∧ u.isHighSurrogate = true ∧ v.isLowSurrogate = true ∧
      ofPair u v = c := by
  refine ⟨_, _, if_neg (Nat.not_lt.mpr hc), ?_, ?_, ?_⟩
  · rw [CodeUnit.isHighSurrogate_iff, UInt16.toNat_ofNat']
    omega
  · rw [CodeUnit.isLowSurrogate_iff, UInt16.toNat_ofNat']
    omega
  · unfold ofPair CodePoint
    rw [UInt16.toNat_ofNat', UInt16.toNat_ofNat']
    omega

/-- Side by side the two would be read as one code point. -/
def Joins (a b : CodePoint) : Prop := 0xD800 ≤ a ∧ a ≤ 0xDBFF ∧ 0xDC00 ≤ b ∧ b ≤ 0xDFFF

theorem Joins.isSurrogate (a b : CodePoint) (h : Joins a b) :
    isSurrogate a = true ∧ isSurrogate b = true := by
  obtain ⟨h1, h2, h3, h4⟩ := h
  rw [isSurrogate_iff, isSurrogate_iff]
  unfold CodePoint at *
  omega

end CodePoint

namespace Text

/-! ## Cuts -/

/-- A cut between the halves of a surrogate pair. -/
def SplitsPair (front back : Text) : Prop :=
  front.getLast?.any CodeUnit.isHighSurrogate = true ∧
    back.head?.any CodeUnit.isLowSurrogate = true

theorem not_splitsPair_nil_right (front : Text) : ¬ SplitsPair front [] := by
  simp [SplitsPair]

theorem SplitsPair.cons (u : CodeUnit) (front back : Text) (h : SplitsPair front back) :
    SplitsPair (u :: front) back := by
  obtain ⟨hfront, hback⟩ := h
  refine ⟨?_, hback⟩
  rw [List.getLast?_cons]
  cases hlast : front.getLast? with
  | none => simp [hlast] at hfront
  | some v => simpa [hlast] using hfront

theorem codePoints_cons_pair (u v : CodeUnit) (t : Text) (hu : u.isHighSurrogate = true)
    (hv : v.isLowSurrogate = true) :
    codePoints (u :: v :: t) = CodePoint.ofPair u v :: codePoints t := by
  simp [codePoints, hu, hv]

theorem codePoints_cons_single (u : CodeUnit) (t : Text) (h : ¬ SplitsPair [u] t) :
    codePoints (u :: t) = u.toNat :: codePoints t := by
  cases t with
  | nil => simp [codePoints]
  | cons v t =>
    simp only [SplitsPair, List.getLast?_singleton, List.head?_cons, Option.any_some] at h
    rw [codePoints, if_neg (by simpa using h)]

theorem codePoints_cases (t : Text) :
    t = [] ∨ (∃ u t', t = u :: t' ∧ ¬ SplitsPair [u] t') ∨
      ∃ u v t', t = u :: v :: t' ∧ u.isHighSurrogate = true ∧ v.isLowSurrogate = true := by
  match t with
  | [] => exact Or.inl rfl
  | u :: t =>
    by_cases h : SplitsPair [u] t
    · obtain ⟨hu, hv⟩ := h
      cases t with
      | nil => simp at hv
      | cons v t => exact Or.inr (Or.inr ⟨u, v, t, rfl, by simpa using hu, by simpa using hv⟩)
    · exact Or.inr (Or.inl ⟨u, t, rfl, h⟩)

theorem codePoints_append (front back : Text) (h : ¬ SplitsPair front back) :
    codePoints (front ++ back) = codePoints front ++ codePoints back := by
  fun_induction codePoints front with
  | case1 => rfl
  | case2 u => exact codePoints_cons_single u back h
  | case3 u v t hpair ih =>
    rw [Bool.and_eq_true] at hpair
    have ht : ¬ SplitsPair t back := fun hs => h ((hs.cons v t back).cons u _ back)
    rw [List.cons_append, List.cons_append, codePoints_cons_pair u v _ hpair.1 hpair.2, ih ht]
    rfl
  | case4 u v t hpair ih =>
    have ht : ¬ SplitsPair (v :: t) back := fun hs => h (hs.cons u _ back)
    rw [List.cons_append, codePoints_cons_single u _ (by simpa [SplitsPair] using hpair), ih ht]
    rfl

/-! ## Reading and writing -/

theorem ofCodePoints_cons (c : CodePoint) (cs : List CodePoint) :
    ofCodePoints (c :: cs) = c.toUnits ++ ofCodePoints cs := List.flatMap_cons

theorem ofCodePoints_append (cs ds : List CodePoint) :
    ofCodePoints (cs ++ ds) = ofCodePoints cs ++ ofCodePoints ds := List.flatMap_append

theorem ofCodePoints_codePoints (t : Text) : ofCodePoints (codePoints t) = t := by
  fun_induction codePoints t with
  | case1 => rfl
  | case2 u => simp [ofCodePoints, CodePoint.toUnits_toNat]
  | case3 u v t hpair ih =>
    rw [Bool.and_eq_true] at hpair
    rw [ofCodePoints_cons, ih, CodePoint.toUnits_ofPair u v hpair.1 hpair.2]
    rfl
  | case4 u v t hpair ih =>
    rw [ofCodePoints_cons, ih, CodePoint.toUnits_toNat]
    rfl

theorem codePoints_eq_nil (t : Text) (h : codePoints t = []) : t = [] := by
  rw [← ofCodePoints_codePoints t, h]
  rfl

theorem le_of_mem_codePoints (t : Text) : ∀ c ∈ codePoints t, c ≤ 0x10FFFF := by
  have hunit : ∀ u : CodeUnit, u.toNat ≤ 0x10FFFF := by
    intro u
    have := u.toNat_lt
    omega
  fun_induction codePoints t with
  | case1 => simp
  | case2 u => simpa using hunit u
  | case3 u v t hpair ih =>
    rw [Bool.and_eq_true] at hpair
    simpa using ⟨(CodePoint.ofPair_bounds u v hpair.1 hpair.2).2, ih⟩
  | case4 u v t hpair ih => simpa using ⟨hunit u, ih⟩

/-- A code point in the low half is read off its unit, for a pair is read as a greater one. -/
theorem head?_codePoints_of_low (t : Text) (c : Nat) (h : (codePoints t).head? = some c)
    (hc : 0xDC00 ≤ c ∧ c ≤ 0xDFFF) : t.head?.any CodeUnit.isLowSurrogate = true := by
  rcases codePoints_cases t with rfl | ⟨u, t, rfl, hu⟩ | ⟨u, v, t, rfl, hu, hv⟩
  · simp [codePoints] at h
  · rw [codePoints_cons_single u t hu] at h
    obtain rfl : u.toNat = c := by simpa using h
    simpa [CodeUnit.isLowSurrogate_iff] using hc
  · rw [codePoints_cons_pair u v t hu hv] at h
    have hbounds := CodePoint.ofPair_bounds u v hu hv
    obtain rfl : CodePoint.ofPair u v = c := by simpa using h
    unfold CodePoint at *
    omega

theorem codePoints_isChain (t : Text) :
    (codePoints t).IsChain fun a b => ¬ CodePoint.Joins a b := by
  fun_induction codePoints t with
  | case1 => exact .nil
  | case2 u => exact .singleton _
  | case3 u v t hpair ih =>
    rw [Bool.and_eq_true] at hpair
    have hbounds := CodePoint.ofPair_bounds u v hpair.1 hpair.2
    rw [List.isChain_cons]
    refine ⟨?_, ih⟩
    rintro c - ⟨-, hle, -⟩
    unfold CodePoint at *
    omega
  | case4 u v t hpair ih =>
    rw [List.isChain_cons]
    refine ⟨?_, ih⟩
    rintro c hc ⟨hlow, hhigh, hc'⟩
    apply hpair
    rw [Bool.and_eq_true, CodeUnit.isHighSurrogate_iff]
    exact ⟨⟨hlow, hhigh⟩, by simpa using head?_codePoints_of_low (v :: t) c hc hc'⟩

theorem codePoints_toUnits (c : Nat) (hc : c ≤ 0x10FFFF) :
    codePoints (CodePoint.toUnits c) = [c] := by
  by_cases h : c < 0x10000
  · obtain ⟨u, hu, rfl⟩ := CodePoint.toUnits_single c h
    rw [hu]
    rfl
  · obtain ⟨u, v, huv, hu, hv, rfl⟩ := CodePoint.toUnits_pair c (Nat.not_lt.mp h) hc
    rw [huv, codePoints_cons_pair u v [] hu hv]
    rfl

theorem splitsPair_toUnits (c d : Nat) (back : Text) (hc : c ≤ 0x10FFFF) (hd : d ≤ 0x10FFFF)
    (h : SplitsPair (CodePoint.toUnits c) (CodePoint.toUnits d ++ back)) : CodePoint.Joins c d := by
  obtain ⟨hlast, hhead⟩ := h
  have hc' : 0xD800 ≤ c ∧ c ≤ 0xDBFF := by
    by_cases hsmall : c < 0x10000
    · obtain ⟨u, hu, rfl⟩ := CodePoint.toUnits_single c hsmall
      simpa [hu, CodeUnit.isHighSurrogate_iff] using hlast
    · obtain ⟨u, v, huv, -, hv, -⟩ := CodePoint.toUnits_pair c (Nat.not_lt.mp hsmall) hc
      have hlow : v.isHighSurrogate = true := by simpa [huv] using hlast
      rw [CodeUnit.isLowSurrogate_eq_false_of_isHighSurrogate hlow] at hv
      cases hv
  have hd' : 0xDC00 ≤ d ∧ d ≤ 0xDFFF := by
    by_cases hsmall : d < 0x10000
    · obtain ⟨u, hu, rfl⟩ := CodePoint.toUnits_single d hsmall
      simpa [hu, CodeUnit.isLowSurrogate_iff] using hhead
    · obtain ⟨u, v, huv, hu, -, -⟩ := CodePoint.toUnits_pair d (Nat.not_lt.mp hsmall) hd
      have hlow : u.isLowSurrogate = true := by simpa [huv] using hhead
      rw [CodeUnit.isLowSurrogate_eq_false_of_isHighSurrogate hu] at hlow
      cases hlow
  exact ⟨hc'.1, hc'.2, hd'⟩

theorem codePoints_ofCodePoints (cs : List CodePoint) (hmax : ∀ c ∈ cs, c ≤ 0x10FFFF)
    (hchain : cs.IsChain fun a b => ¬ CodePoint.Joins a b) : codePoints (ofCodePoints cs) = cs := by
  induction cs with
  | nil => rfl
  | cons c cs ih =>
    rw [List.isChain_cons] at hchain
    have hc := hmax c List.mem_cons_self
    have hcs : ∀ d ∈ cs, d ≤ 0x10FFFF := fun d hd => hmax d (List.mem_cons_of_mem c hd)
    have hcut : ¬ SplitsPair c.toUnits (ofCodePoints cs) := by
      cases cs with
      | nil => exact not_splitsPair_nil_right _
      | cons d cs =>
        rw [ofCodePoints_cons]
        intro h
        exact hchain.1 d rfl (splitsPair_toUnits c d _ hc (hcs d List.mem_cons_self) h)
    rw [ofCodePoints_cons, codePoints_append _ _ hcut, codePoints_toUnits c hc, ih hcs hchain.2]
    rfl

/-! ## Positions -/

/-- The number of units that code points take. -/
def unitSum : List CodePoint → Nat
  | [] => 0
  | c :: cs => c.unitCount + unitSum cs

@[simp]
theorem unitSum_nil : unitSum [] = 0 := rfl

@[simp]
theorem unitSum_cons (c : CodePoint) (cs : List CodePoint) :
    unitSum (c :: cs) = c.unitCount + unitSum cs := rfl

@[simp]
theorem unitSum_append (cs ds : List CodePoint) : unitSum (cs ++ ds) = unitSum cs + unitSum ds := by
  induction cs with
  | nil => simp
  | cons c cs ih => rw [List.cons_append, unitSum_cons, unitSum_cons, ih, Nat.add_assoc]

theorem unitSum_eq_zero (cs : List CodePoint) : unitSum cs = 0 ↔ cs = [] := by
  cases cs with
  | nil => simp
  | cons c cs =>
    have hc : c.unitCount ≠ 0 := by
      unfold CodePoint.unitCount
      split <;> omega
    simp [hc]

theorem length_ofCodePoints (cs : List CodePoint) : (ofCodePoints cs).length = unitSum cs := by
  induction cs with
  | nil => rfl
  | cons c cs ih =>
    rw [ofCodePoints_cons, List.length_append, CodePoint.length_toUnits, ih, unitSum_cons]

theorem unitSum_codePoints (t : Text) : unitSum (codePoints t) = t.length := by
  rw [← length_ofCodePoints, ofCodePoints_codePoints]

theorem codePoints_ofCodePoints_of_append (t : Text) (before front after : List CodePoint)
    (h : codePoints t = before ++ front ++ after) : codePoints (ofCodePoints front) = front := by
  have hchain := codePoints_isChain t
  rw [h] at hchain
  refine codePoints_ofCodePoints front ?_ hchain.left_of_append.right_of_append
  intro c hc
  apply le_of_mem_codePoints t
  rw [h]
  simp [hc]

theorem codePoints_cut (t : Text) (front back : List CodePoint) (h : codePoints t = front ++ back) :
    t.take (unitSum front) = ofCodePoints front ∧ t.drop (unitSum front) = ofCodePoints back ∧
      codePoints (t.take (unitSum front)) = front ∧ codePoints (t.drop (unitSum front)) = back := by
  have ht : t = ofCodePoints front ++ ofCodePoints back := by
    rw [← ofCodePoints_append, ← h, ofCodePoints_codePoints]
  have hfront := codePoints_ofCodePoints_of_append t [] front back (by simpa using h)
  have hback := codePoints_ofCodePoints_of_append t front back [] (by simpa using h)
  have htake : t.take (unitSum front) = ofCodePoints front := by
    rw [ht, ← length_ofCodePoints, List.take_left]
  have hdrop : t.drop (unitSum front) = ofCodePoints back := by
    rw [ht, ← length_ofCodePoints, List.drop_left]
  exact ⟨htake, hdrop, by rw [htake, hfront], by rw [hdrop, hback]⟩

/-! ## Unpaired surrogates -/

theorem codePoints_concat_high (t : Text) (u : CodeUnit) (hu : u.isHighSurrogate = true) :
    codePoints (t ++ [u]) = codePoints t ++ [u.toNat] := by
  apply codePoints_append
  rintro ⟨-, hlow⟩
  rw [List.head?_cons, Option.any_some,
    CodeUnit.isLowSurrogate_eq_false_of_isHighSurrogate hu] at hlow
  cases hlow

theorem codePoints_cons_low (v : CodeUnit) (t : Text) (hv : v.isLowSurrogate = true) :
    codePoints (v :: t) = v.toNat :: codePoints t := by
  apply codePoints_cons_single
  rintro ⟨hhigh, -⟩
  have hvhigh : v.isHighSurrogate = true := by simpa using hhigh
  rw [CodeUnit.isLowSurrogate_eq_false_of_isHighSurrogate hvhigh] at hv
  cases hv

theorem codePoints_cut_whole (t : Text) (front back : List CodePoint)
    (h : codePoints t = front ++ back) :
    ¬ SplitsPair (t.take (unitSum front)) (t.drop (unitSum front)) := by
  obtain ⟨-, -, hfront, hback⟩ := codePoints_cut t front back h
  have hchain := codePoints_isChain t
  rw [h, ← hfront, ← hback, List.isChain_append] at hchain
  rintro ⟨hlast, hhead⟩
  rw [Option.any_eq_true] at hlast hhead
  obtain ⟨u, hu, huhigh⟩ := hlast
  obtain ⟨v, hv, hvlow⟩ := hhead
  obtain ⟨init, hinit⟩ := List.getLast?_eq_some_iff.mp hu
  obtain ⟨tail, htail⟩ := List.head?_eq_some_iff.mp hv
  rw [hinit, htail, codePoints_concat_high init u huhigh,
    codePoints_cons_low v tail hvlow] at hchain
  rw [CodeUnit.isHighSurrogate_iff] at huhigh
  rw [CodeUnit.isLowSurrogate_iff] at hvlow
  exact hchain.2.2 _ List.getLast?_concat _ rfl ⟨huhigh.1, huhigh.2, hvlow⟩

/-- The unit at `i` is a surrogate, and the other half of a pair is on neither side of it. -/
def UnpairedAt (t : Text) (i : Nat) : Prop :=
  t[i]?.any CodeUnit.isSurrogate = true ∧ ¬ SplitsPair (t.take i) (t.drop i) ∧
    ¬ SplitsPair (t.take (i + 1)) (t.drop (i + 1))

theorem unpairedAt_iff (front back : Text) (h : ¬ SplitsPair front back) :
    UnpairedAt (front ++ back) front.length ↔
      ∃ c, back.codePoints.head? = some c ∧ c.isSurrogate = true := by
  unfold UnpairedAt
  rw [List.take_left, List.drop_left, List.take_length_add_append, List.drop_length_add_append]
  rcases codePoints_cases back with rfl | ⟨u, back, rfl, hu⟩ | ⟨u, v, back, rfl, hu, hv⟩
  · simp [codePoints]
  · have hcut : ¬ SplitsPair (front ++ [u]) back := by simpa [SplitsPair] using hu
    rw [codePoints_cons_single u back hu]
    simp [h, hcut, CodeUnit.isSurrogate, CodePoint.isSurrogate]
  · have hcut : SplitsPair (front ++ [u]) (v :: back) := by simp [SplitsPair, hu, hv]
    rw [codePoints_cons_pair u v back hu hv]
    simp [hcut, CodePoint.isSurrogate_ofPair u v hu hv]

theorem unpairedAt_cut (t : Text) (front back : List CodePoint) (h : codePoints t = front ++ back) :
    UnpairedAt t (unitSum front) ↔ ∃ c, back.head? = some c ∧ c.isSurrogate = true := by
  obtain ⟨htake, -, -, hback⟩ := codePoints_cut t front back h
  have hcut := unpairedAt_iff _ _ (codePoints_cut_whole t front back h)
  rwa [List.take_append_drop, htake, length_ofCodePoints, hback] at hcut

end Text

end LexicalPath
