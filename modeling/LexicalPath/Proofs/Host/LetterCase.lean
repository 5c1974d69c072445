import LexicalPath.Host.Basic
import LexicalPath.Separator
import Mathlib.Tactic.SplitIfs

/-!
# Host names in any case

A unit that is no letter is told from all others whatever their case, and so are the classes of
units that hold every letter with its other case. The tests of a host ask for nothing else.
-/

namespace LexicalPath

/-! ## Single units -/

namespace CodeUnit

theorem isLetter_colon : colon.isLetter = false := by decide

theorem isLetter_dot : dot.isLetter = false := by decide

variable (u : CodeUnit)

theorem toNat_upper :
    u.upper.toNat = if 97 ≤ u.toNat ∧ u.toNat ≤ 122 then u.toNat - 32 else u.toNat := by
  unfold upper
  split
  · next h =>
    have h32 : (32 : CodeUnit) ≤ u := UInt16.le_iff_toNat_le.mpr (by simp; omega)
    simp [UInt16.toNat_sub_of_le u 32 h32]
  · rfl

theorem isDigit_upper : u.upper.isDigit = u.isDigit := by
  rw [Bool.eq_iff_iff]
  simp only [isDigit, toNat_upper, Bool.and_eq_true, decide_eq_true_eq]
  split <;> omega

theorem isLetter_upper : u.upper.isLetter = u.isLetter := by
  rw [Bool.eq_iff_iff]
  simp only [isLetter, toNat_upper, Bool.and_eq_true, Bool.or_eq_true, decide_eq_true_eq]
  split <;> omega

theorem isHexDigit_upper : u.upper.isHexDigit = u.isHexDigit := by
  rw [Bool.eq_iff_iff]
  simp only [isHexDigit, isDigit_upper, toNat_upper, Bool.and_eq_true, Bool.or_eq_true,
    decide_eq_true_eq]
  split
  · simp only [isDigit, Bool.and_eq_true, decide_eq_true_eq]
    omega
  · rfl

theorem upper_of_not_isLetter (h : u.isLetter = false) : u.upper = u := by
  unfold upper
  rw [if_neg]
  simp only [isLetter, Bool.or_eq_false_iff, Bool.and_eq_false_iff, decide_eq_false_iff_not] at h
  omega

theorem upper_eq_iff (c : CodeUnit) (hc : c.isLetter = false) : u.upper = c ↔ u = c := by
  constructor
  · intro h
    rw [← h, isLetter_upper] at hc
    rw [← upper_of_not_isLetter u hc, h]
  · rintro rfl
    exact upper_of_not_isLetter u hc

theorem upper_beq (c : CodeUnit) (hc : c.isLetter = false) : (u.upper == c) = (u == c) := by
  rw [Bool.eq_iff_iff, beq_iff_eq, beq_iff_eq, upper_eq_iff u c hc]

end CodeUnit

/-! ## Texts -/

namespace Text

theorem fold_cons (u : CodeUnit) (t : Text) : fold (u :: t) = u.upper :: t.fold := rfl

theorem fold_append (s t : Text) : fold (s ++ t) = s.fold ++ t.fold := List.map_append

theorem length_fold (t : Text) : t.fold.length = t.length := List.length_map _

theorem isEmpty_fold (t : Text) : t.fold.isEmpty = t.isEmpty := List.isEmpty_map

theorem fold_of_not_isLetter (t : Text) (h : ∀ u ∈ t, u.isLetter = false) : t.fold = t := by
  unfold fold
  rw [List.map_congr_left fun u hu => u.upper_of_not_isLetter (h u hu), List.map_id']

theorem all_fold (p : CodeUnit → Bool) (hp : ∀ u, p u.upper = p u) (t : Text) :
    t.fold.all p = t.all p := by
  unfold fold
  rw [List.all_map]
  congr 1
  exact funext hp

theorem splitOnP_fold (p : CodeUnit → Bool) (hp : ∀ u, p u.upper = p u) (t : Text) :
    t.fold.splitOnP p = (t.splitOnP p).map fold := by
  induction t with
  | nil => rfl
  | cons u t ih =>
    rw [fold_cons, List.splitOnP_cons_eq_if_modifyHead, List.splitOnP_cons_eq_if_modifyHead, hp, ih]
    obtain ⟨first, others, hsplit⟩ := List.exists_cons_of_ne_nil (List.splitOnP_ne_nil p t)
    split <;> simp [hsplit, fold]

theorem contains_fold (c : CodeUnit) (hc : c.isLetter = false) (t : Text) :
    t.fold.contains c = t.contains c := by
  rw [Bool.eq_iff_iff]
  simp [fold, CodeUnit.upper_eq_iff _ c hc]

section

variable (s : Text) (hs : ∀ u ∈ s, u.isLetter = false)

include hs in
theorem isPrefixOf_fold (t : Text) : s.isPrefixOf t.fold = s.isPrefixOf t := by
  induction s generalizing t with
  | nil => simp
  | cons c s ih =>
    rw [List.forall_mem_cons] at hs
    cases t with
    | nil => rfl
    | cons u t =>
      rw [fold_cons, List.isPrefixOf_cons_cons, List.isPrefixOf_cons_cons, ih hs.2 t,
        BEq.comm, CodeUnit.upper_beq u c hs.1, BEq.comm]

include hs in
theorem isSuffixOf_fold (t : Text) : s.isSuffixOf t.fold = s.isSuffixOf t := by
  unfold List.isSuffixOf
  have hreverse : t.fold.reverse = fold t.reverse := List.map_reverse.symm
  rw [hreverse, isPrefixOf_fold s.reverse (by simpa using hs)]

include hs in
theorem block?_fold (t : Text) : Search.block? s t.fold = Search.block? s t := by
  induction t with
  | nil => rfl
  | cons u t ih =>
    have hstart := isPrefixOf_fold s hs (u :: t)
    rw [fold_cons] at hstart ⊢
    rw [Search.block?, Search.block?, hstart, ih]

include hs in
theorem indexOfText?_fold (t : Text) (start : Int) :
    t.fold.indexOfText? s start = t.indexOfText? s start := by
  have hdrop : t.fold.drop start.toNat = fold (t.drop start.toNat) := List.map_drop.symm
  unfold indexOfText? Search.nextBlock?
  rw [length_fold, hdrop, block?_fold s hs]

end

end Text

/-! ## Hosts -/

open Text

theorem Ipv4.isOctet_fold (t : Text) : isOctet t.fold = isOctet t := by
  have hall := all_fold CodeUnit.isDigit CodeUnit.isDigit_upper t
  by_cases h : t.all CodeUnit.isDigit = true
  · rw [fold_of_not_isLetter t]
    intro u hu
    have hdigit := List.all_eq_true.mp h u hu
    simp only [CodeUnit.isDigit, CodeUnit.isLetter, Bool.and_eq_true, Bool.or_eq_false_iff,
      Bool.and_eq_false_iff, decide_eq_true_eq, decide_eq_false_iff_not] at hdigit ⊢
    omega
  · rw [Bool.not_eq_true] at h
    unfold isOctet
    simp [hall, h]

theorem Ipv4.isAddress_fold (t : Text) : isAddress t.fold = isAddress t := by
  unfold isAddress
  rw [splitOnP_fold _ (fun u => u.upper_beq _ (by decide))]
  simp [List.all_map, Function.comp_def, isOctet_fold]

namespace Ipv6

theorem not_isLetter_doubleColon : ∀ u ∈ doubleColon, u.isLetter = false := by
  simp [doubleColon, CodeUnit.isLetter_colon]

theorem not_isLetter_singleColon : ∀ u ∈ singleColon, u.isLetter = false := by
  simp [singleColon, CodeUnit.isLetter_colon]

theorem dropTrailingEmpty_fold (gs : List Text) :
    dropTrailingEmpty (gs.map fold) = (dropTrailingEmpty gs).map fold := by
  unfold dropTrailingEmpty
  rw [← List.map_reverse, List.dropWhile_map, ← List.map_reverse]
  congr 3
  exact funext isEmpty_fold

theorem colonGroups_fold (t : Text) : colonGroups t.fold = (colonGroups t).map fold := by
  unfold colonGroups
  rw [contains_fold _ (by decide), splitOnP_fold _ (fun u => u.upper_beq _ (by decide)),
    dropTrailingEmpty_fold]
  split <;> rfl

theorem groups_fold (t : Text) : groups t.fold = (groups t).map fold := by
  unfold groups
  rw [indexOfText?_fold _ not_isLetter_doubleColon, isSuffixOf_fold _ not_isLetter_doubleColon,
    isPrefixOf_fold _ not_isLetter_doubleColon, colonGroups_fold]
  split_ifs <;> simp [fold]

theorem weight?_fold (afterEmpty : Bool) (gs : List Text) :
    weight? afterEmpty (gs.map fold) = weight? afterEmpty gs := by
  induction gs generalizing afterEmpty with
  | nil => rfl
  | cons g gs ih =>
    rw [List.map_cons, weight?, weight?, isEmpty_fold, List.isEmpty_map,
      contains_fold _ (by decide), length_fold, all_fold _ CodeUnit.isHexDigit_upper,
      Ipv4.isAddress_fold, ih, ih]

theorem isAddress_fold (t : Text) : isAddress t.fold = isAddress t := by
  have hsecond : hasSecondDoubleColon t.fold = hasSecondDoubleColon t := by
    unfold hasSecondDoubleColon
    simp only [indexOfText?_fold _ not_isLetter_doubleColon]
  have hloose : hasLooseColon t.fold = hasLooseColon t := by
    unfold hasLooseColon
    rw [isPrefixOf_fold _ not_isLetter_singleColon, isPrefixOf_fold _ not_isLetter_doubleColon,
      isSuffixOf_fold _ not_isLetter_singleColon, isSuffixOf_fold _ not_isLetter_doubleColon]
  unfold isAddress
  rw [hsecond, hloose, groups_fold, List.length_map, weight?_fold,
    indexOfText?_fold _ not_isLetter_doubleColon]

end Ipv6

namespace RegisteredName

theorem isAlphanumeric_upper (u : CodeUnit) : isAlphanumeric u.upper = isAlphanumeric u := by
  unfold isAlphanumeric
  rw [CodeUnit.isLetter_upper, CodeUnit.isDigit_upper]

theorem isLabel_fold (t : Text) : isLabel t.fold = isLabel t := by
  cases t with
  | nil => rfl
  | cons u t =>
    rw [fold_cons, isLabel, isLabel, isAlphanumeric_upper, all_fold]
    intro v
    rw [isAlphanumeric_upper, CodeUnit.upper_beq v _ (by decide)]

theorem areLabels_fold (ls : List Text) : areLabels (ls.map fold) = areLabels ls := by
  induction ls with
  | nil => rfl
  | cons l ls ih =>
    rw [List.map_cons, areLabels, areLabels, isEmpty_fold, List.isEmpty_map, isLabel_fold, ih]

theorem isName_fold (t : Text) : isName t.fold = isName t := by
  unfold isName
  rw [splitOnP_fold _ (fun u => u.upper_beq _ (by decide)), areLabels_fold]

end RegisteredName

theorem Host.isValid_fold (t : Text) : isValid t.fold = isValid t := by
  unfold isValid
  rw [Ipv4.isAddress_fold, Ipv6.isAddress_fold, RegisteredName.isName_fold]

end LexicalPath
