import LexicalPath.Proofs.Text.CodePoints
import LexicalPath.Utf8

/-!
# The grammar of UTF-8

`Sequence` lists the forms that the bytes of one code point have, and they are the forms that the
encoder writes. The decoder takes exactly the rows of such forms, as long as none of them stands for
a surrogate.
-/

namespace LexicalPath.Utf8

/-- The bytes of one code point: no form is longer than it has to be or goes beyond U+10FFFF.
Surrogates have a form too. -/
inductive Sequence : Bytes → Prop where
  | one (a : UInt8) (ha : a.toNat ≤ 0x7F) : Sequence [a]
  | two (a b : UInt8) (ha : 0xC2 ≤ a.toNat ∧ a.toNat ≤ 0xDF) (hb : isContinuation b = true) :
      Sequence [a, b]
  | three (a b c : UInt8) (ha : 0xE0 ≤ a.toNat ∧ a.toNat ≤ 0xEF) (hb : isContinuation b = true)
      (hc : isContinuation c = true) (hshort : a.toNat = 0xE0 → 0xA0 ≤ b.toNat) :
      Sequence [a, b, c]
  | four (a b c d : UInt8) (ha : 0xF0 ≤ a.toNat ∧ a.toNat ≤ 0xF4) (hb : isContinuation b = true)
      (hc : isContinuation c = true) (hd : isContinuation d = true)
      (hshort : a.toNat = 0xF0 → 0x90 ≤ b.toNat) (hmax : a.toNat = 0xF4 → b.toNat ≤ 0x8F) :
      Sequence [a, b, c, d]

/-- The code point that the bytes of a sequence stand for. -/
def value : Bytes → Nat
  | [a] => a.toNat
  | [a, b] => (a.toNat - 0xC0) * 0x40 + (b.toNat - 0x80)
  | [a, b, c] => (a.toNat - 0xE0) * 0x1000 + (b.toNat - 0x80) * 0x40 + (c.toNat - 0x80)
  | [a, b, c, d] =>
    (a.toNat - 0xF0) * 0x40000 + (b.toNat - 0x80) * 0x1000 + (c.toNat - 0x80) * 0x40 +
      (d.toNat - 0x80)
  | _ => 0

theorem value_one (a : UInt8) : value [a] = a.toNat := rfl

theorem value_two (a b : UInt8) :
    value [a, b] = (a.toNat - 0xC0) * 0x40 + (b.toNat - 0x80) := rfl

theorem value_three (a b c : UInt8) :
    value [a, b, c] = (a.toNat - 0xE0) * 0x1000 + (b.toNat - 0x80) * 0x40 + (c.toNat - 0x80) := rfl

theorem value_four (a b c d : UInt8) :
    value [a, b, c, d] =
      (a.toNat - 0xF0) * 0x40000 + (b.toNat - 0x80) * 0x1000 + (c.toNat - 0x80) * 0x40 +
        (d.toNat - 0x80) := rfl

inductive Valid : Bytes → Prop where
  | nil : Valid []
  | append (s rest : Bytes) (hs : Sequence s) (hrest : Valid rest) : Valid (s ++ rest)

/-- Somewhere in the bytes there is the form of a surrogate. -/
def HoldsSurrogate (s : Bytes) : Prop :=
  ∃ front b c back, s = front ++ 0xED :: b :: c :: back ∧ 0xA0 ≤ b.toNat ∧ b.toNat ≤ 0xBF

/-! ## The forms of the encoder -/

theorem isContinuation_iff (b : UInt8) :
    isContinuation b = true ↔ 0x80 ≤ b.toNat ∧ b.toNat ≤ 0xBF := by
  simp [isContinuation]

theorem toNat_byte (n : Nat) (h : n < 0x100) : (UInt8.ofNat n).toNat = n := by
  rw [UInt8.toNat_ofNat']
  exact Nat.mod_eq_of_lt h

theorem encodeScalar_one (c : Nat) (hc : c < 0x80) :
    ∃ a, encodeScalar c = [a] ∧ a.toNat = c :=
  ⟨_, if_pos hc, toNat_byte _ (by omega)⟩

theorem encodeScalar_two (c : Nat) (hmin : 0x80 ≤ c) (hc : c < 0x800) :
    ∃ a b, encodeScalar c = [a, b] ∧ a.toNat = 0xC0 + c / 0x40 ∧ b.toNat = 0x80 + c % 0x40 := by
  refine ⟨_, _, ?_, toNat_byte _ (by omega), toNat_byte _ (by omega)⟩
  unfold encodeScalar
  rw [if_neg (Nat.not_lt.mpr hmin), if_pos hc]

theorem encodeScalar_three (c : Nat) (hmin : 0x800 ≤ c) (hc : c < 0x10000) :
    ∃ a b d, encodeScalar c = [a, b, d] ∧ a.toNat = 0xE0 + c / 0x1000 ∧
      b.toNat = 0x80 + c / 0x40 % 0x40 ∧ d.toNat = 0x80 + c % 0x40 := by
  refine ⟨_, _, _, ?_, toNat_byte _ (by omega), toNat_byte _ (by omega), toNat_byte _ (by omega)⟩
  unfold encodeScalar CodePoint
  rw [if_neg (by omega), if_neg (Nat.not_lt.mpr hmin), if_pos hc]

theorem encodeScalar_four (c : Nat) (hmin : 0x10000 ≤ c) (hc : c ≤ 0x10FFFF) :
    ∃ a b d e, encodeScalar c = [a, b, d, e] ∧ a.toNat = 0xF0 + c / 0x40000 ∧
      b.toNat = 0x80 + c / 0x1000 % 0x40 ∧ d.toNat = 0x80 + c / 0x40 % 0x40 ∧
      e.toNat = 0x80 + c % 0x40 := by
  refine ⟨_, _, _, _, ?_, toNat_byte _ (by omega), toNat_byte _ (by omega),
    toNat_byte _ (by omega), toNat_byte _ (by omega)⟩
  unfold encodeScalar CodePoint
  rw [if_neg (by omega), if_neg (by omega), if_neg (Nat.not_lt.mpr hmin)]

theorem sequence_encodeScalar (c : Nat) (hc : c ≤ 0x10FFFF) : Sequence (encodeScalar c) := by
  by_cases h1 : c < 0x80
  · obtain ⟨a, h, ha⟩ := encodeScalar_one c h1
    rw [h]
    exact .one a (by omega)
  by_cases h2 : c < 0x800
  · obtain ⟨a, b, h, ha, hb⟩ := encodeScalar_two c (by omega) h2
    rw [h]
    exact .two a b (by omega) ((isContinuation_iff b).mpr (by omega))
  by_cases h3 : c < 0x10000
  · obtain ⟨a, b, d, h, ha, hb, hd⟩ := encodeScalar_three c (by omega) h3
    rw [h]
    exact .three a b d (by omega) ((isContinuation_iff b).mpr (by omega))
      ((isContinuation_iff d).mpr (by omega)) (by omega)
  · obtain ⟨a, b, d, e, h, ha, hb, hd, he⟩ := encodeScalar_four c (by omega) hc
    rw [h]
    exact .four a b d e (by omega) ((isContinuation_iff b).mpr (by omega))
      ((isContinuation_iff d).mpr (by omega)) ((isContinuation_iff e).mpr (by omega)) (by omega)
      (by omega)

theorem encodeScalar_value (s : Bytes) (h : Sequence s) :
    value s ≤ 0x10FFFF ∧ encodeScalar (value s) = s := by
  cases h with
  | one a ha =>
    obtain ⟨a', h, ha'⟩ := encodeScalar_one a.toNat (by omega)
    rw [value_one, h, UInt8.toNat_inj.mp ha']
    exact ⟨by omega, rfl⟩
  | two a b ha hb =>
    rw [isContinuation_iff] at hb
    rw [value_two]
    obtain ⟨a', b', h, ha', hb'⟩ :=
      encodeScalar_two ((a.toNat - 0xC0) * 0x40 + (b.toNat - 0x80)) (by omega) (by omega)
    obtain rfl : a' = a := UInt8.toNat_inj.mp (by omega)
    obtain rfl : b' = b := UInt8.toNat_inj.mp (by omega)
    exact ⟨by omega, h⟩
  | three a b c ha hb hc hshort =>
    rw [isContinuation_iff] at hb hc
    rw [value_three]
    obtain ⟨a', b', c', h, ha', hb', hc'⟩ := encodeScalar_three
      ((a.toNat - 0xE0) * 0x1000 + (b.toNat - 0x80) * 0x40 + (c.toNat - 0x80)) (by omega) (by omega)
    obtain rfl : a' = a := UInt8.toNat_inj.mp (by omega)
    obtain rfl : b' = b := UInt8.toNat_inj.mp (by omega)
    obtain rfl : c' = c := UInt8.toNat_inj.mp (by omega)
    exact ⟨by omega, h⟩
  | four a b c d ha hb hc hd hshort hmax =>
    rw [isContinuation_iff] at hb hc hd
    rw [value_four]
    obtain ⟨a', b', c', d', h, ha', hb', hc', hd'⟩ := encodeScalar_four
      ((a.toNat - 0xF0) * 0x40000 + (b.toNat - 0x80) * 0x1000 + (c.toNat - 0x80) * 0x40 +
        (d.toNat - 0x80)) (by omega) (by omega)
    obtain rfl : a' = a := UInt8.toNat_inj.mp (by omega)
    obtain rfl : b' = b := UInt8.toNat_inj.mp (by omega)
    obtain rfl : c' = c := UInt8.toNat_inj.mp (by omega)
    obtain rfl : d' = d := UInt8.toNat_inj.mp (by omega)
    exact ⟨by omega, h⟩

theorem value_encodeScalar (c : Nat) (hc : c ≤ 0x10FFFF) : value (encodeScalar c) = c := by
  by_cases h1 : c < 0x80
  · obtain ⟨a, h, ha⟩ := encodeScalar_one c h1
    rw [h, value_one, ha]
  by_cases h2 : c < 0x800
  · obtain ⟨a, b, h, ha, hb⟩ := encodeScalar_two c (by omega) h2
    rw [h, value_two]
    omega
  by_cases h3 : c < 0x10000
  · obtain ⟨a, b, d, h, ha, hb, hd⟩ := encodeScalar_three c (by omega) h3
    rw [h, value_three]
    omega
  · obtain ⟨a, b, d, e, h, ha, hb, hd, he⟩ := encodeScalar_four c (by omega) hc
    rw [h, value_four]
    omega

theorem valid_iff (s : Bytes) :
    Valid s ↔ ∃ cs : List CodePoint, (∀ c ∈ cs, c ≤ 0x10FFFF) ∧ cs.flatMap encodeScalar = s := by
  constructor
  · intro h
    induction h with
    | nil => exact ⟨[], by simp, rfl⟩
    | append s rest hs hrest ih =>
      obtain ⟨hvalue, hbytes⟩ := encodeScalar_value s hs
      obtain ⟨cs, hcs, rfl⟩ := ih
      refine ⟨value s :: cs, List.forall_mem_cons.mpr ⟨hvalue, hcs⟩, ?_⟩
      rw [List.flatMap_cons, hbytes]
  · rintro ⟨cs, hcs, rfl⟩
    induction cs with
    | nil => exact .nil
    | cons c cs ih =>
      rw [List.forall_mem_cons] at hcs
      rw [List.flatMap_cons]
      exact .append _ _ (sequence_encodeScalar c hcs.1) (ih hcs.2)

/-! ## The decoder -/

theorem decode?_one (a : UInt8) (s : Bytes) (ha : a.toNat < 0x80) :
    decode? (a :: s) = (decode? s).map (a.toNat :: ·) := by
  rw [decode?.eq_def]
  exact if_pos ha

theorem decode?_two (a b : UInt8) (s : Bytes) (hmin : 0xC0 ≤ a.toNat) (ha : a.toNat < 0xE0) :
    decode? (a :: b :: s) = (pair? a b).bind fun v => (decode? s).map (v :: ·) := by
  rw [decode?.eq_def]
  simp only
  rw [if_neg (by omega), if_neg (by omega), if_pos ha]

theorem decode?_three (a b c : UInt8) (s : Bytes) (hmin : 0xE0 ≤ a.toNat) (ha : a.toNat < 0xF0) :
    decode? (a :: b :: c :: s) = (triple? a b c).bind fun v => (decode? s).map (v :: ·) := by
  rw [decode?.eq_def]
  simp only
  rw [if_neg (by omega), if_neg (by omega), if_neg (by omega), if_pos ha]

theorem decode?_four (a b c d : UInt8) (s : Bytes) (hmin : 0xF0 ≤ a.toNat) (ha : a.toNat < 0xF8) :
    decode? (a :: b :: c :: d :: s) =
      (quadruple? a b c d).bind fun v => (decode? s).map (v :: ·) := by
  rw [decode?.eq_def]
  simp only
  rw [if_neg (by omega), if_neg (by omega), if_neg (by omega), if_neg (by omega), if_pos ha]

theorem pair?_eq_some_iff (a b : UInt8) (v : Nat) (hmin : 0xC0 ≤ a.toNat) (ha : a.toNat < 0xE0) :
    pair? a b = some v ↔ 0x80 ≤ v ∧ v < 0x800 ∧ encodeScalar v = [a, b] := by
  unfold pair? CodePoint
  rw [Option.ite_none_right_eq_some, Bool.and_eq_true, isContinuation_iff, decide_eq_true_iff,
    Option.some.injEq]
  constructor
  · rintro ⟨⟨hb, hv⟩, rfl⟩
    have hmax : (a.toNat - 0xC0) * 0x40 + (b.toNat - 0x80) < 0x800 := by omega
    obtain ⟨a', b', h, ha', hb'⟩ := encodeScalar_two _ hv hmax
    obtain rfl : a' = a := UInt8.toNat_inj.mp (by omega)
    obtain rfl : b' = b := UInt8.toNat_inj.mp (by omega)
    exact ⟨hv, hmax, h⟩
  · rintro ⟨hv, hmax, h⟩
    obtain ⟨a', b', h', ha', hb'⟩ := encodeScalar_two v hv hmax
    obtain ⟨rfl, rfl⟩ : a' = a ∧ b' = b := by simpa using h'.symm.trans h
    omega

theorem triple?_eq_some_iff (a b c : UInt8) (v : Nat) (hmin : 0xE0 ≤ a.toNat)
    (ha : a.toNat < 0xF0) :
    triple? a b c = some v ↔ 0x800 ≤ v ∧ v < 0x10000 ∧ CodePoint.isSurrogate v = false ∧
      encodeScalar v = [a, b, c] := by
  unfold triple? CodePoint
  rw [Option.ite_none_right_eq_some, Bool.and_eq_true, Bool.and_eq_true, Bool.and_eq_true,
    isContinuation_iff, isContinuation_iff, decide_eq_true_iff, Bool.not_eq_true',
    Option.some.injEq]
  constructor
  · rintro ⟨⟨⟨⟨hb, hc⟩, hv⟩, hsurrogate⟩, rfl⟩
    have hmax :
        (a.toNat - 0xE0) * 0x1000 + (b.toNat - 0x80) * 0x40 + (c.toNat - 0x80) < 0x10000 := by
      omega
    obtain ⟨a', b', c', h, ha', hb', hc'⟩ := encodeScalar_three _ hv hmax
    obtain rfl : a' = a := UInt8.toNat_inj.mp (by omega)
    obtain rfl : b' = b := UInt8.toNat_inj.mp (by omega)
    obtain rfl : c' = c := UInt8.toNat_inj.mp (by omega)
    exact ⟨hv, hmax, hsurrogate, h⟩
  · rintro ⟨hv, hmax, hsurrogate, h⟩
    obtain ⟨a', b', c', h', ha', hb', hc'⟩ := encodeScalar_three v hv hmax
    obtain ⟨rfl, rfl, rfl⟩ : a' = a ∧ b' = b ∧ c' = c := by simpa using h'.symm.trans h
    have hvalue :
        (a'.toNat - 0xE0) * 0x1000 + (b'.toNat - 0x80) * 0x40 + (c'.toNat - 0x80) = v := by
      omega
    rw [hvalue]
    exact ⟨⟨⟨⟨by omega, by omega⟩, hv⟩, hsurrogate⟩, rfl⟩

theorem quadruple?_eq_some_iff (a b c d : UInt8) (v : Nat) (hmin : 0xF0 ≤ a.toNat) :
    quadruple? a b c d = some v ↔ 0x10000 ≤ v ∧ v ≤ 0x10FFFF ∧ encodeScalar v = [a, b, c, d] := by
  unfold quadruple? CodePoint
  rw [Option.ite_none_right_eq_some, Bool.and_eq_true, Bool.and_eq_true, Bool.and_eq_true,
    Bool.and_eq_true, isContinuation_iff, isContinuation_iff, isContinuation_iff,
    decide_eq_true_iff, decide_eq_true_iff, Option.some.injEq]
  constructor
  · rintro ⟨⟨⟨⟨⟨hb, hc⟩, hd⟩, hv⟩, hmax⟩, rfl⟩
    obtain ⟨a', b', c', d', h, ha', hb', hc', hd'⟩ := encodeScalar_four _ hv hmax
    obtain rfl : a' = a := UInt8.toNat_inj.mp (by omega)
    obtain rfl : b' = b := UInt8.toNat_inj.mp (by omega)
    obtain rfl : c' = c := UInt8.toNat_inj.mp (by omega)
    obtain rfl : d' = d := UInt8.toNat_inj.mp (by omega)
    exact ⟨hv, hmax, h⟩
  · rintro ⟨hv, hmax, h⟩
    obtain ⟨a', b', c', d', h', ha', hb', hc', hd'⟩ := encodeScalar_four v hv hmax
    obtain ⟨rfl, rfl, rfl, rfl⟩ : a' = a ∧ b' = b ∧ c' = c ∧ d' = d := by
      simpa using h'.symm.trans h
    omega

theorem decode?_encodeScalar_append (c : Nat) (hc : CodePoint.isScalar c = true) (s : Bytes) :
    decode? (encodeScalar c ++ s) = (decode? s).map (c :: ·) := by
  rw [CodePoint.isScalar_iff] at hc
  by_cases h1 : c < 0x80
  · obtain ⟨a, h, rfl⟩ := encodeScalar_one c h1
    rw [h]
    exact decode?_one a s h1
  by_cases h2 : c < 0x800
  · obtain ⟨a, b, h, ha, -⟩ := encodeScalar_two c (by omega) h2
    have hpair := (pair?_eq_some_iff a b c (by omega) (by omega)).mpr ⟨by omega, h2, h⟩
    rw [h]
    exact (decode?_two a b s (by omega) (by omega)).trans (by rw [hpair, Option.bind_some])
  by_cases h3 : c < 0x10000
  · obtain ⟨a, b, d, h, ha, -⟩ := encodeScalar_three c (by omega) h3
    have htriple := (triple?_eq_some_iff a b d c (by omega) (by omega)).mpr ⟨by omega, h3, hc.2, h⟩
    rw [h]
    exact (decode?_three a b d s (by omega) (by omega)).trans (by rw [htriple, Option.bind_some])
  · obtain ⟨a, b, d, e, h, ha, -⟩ := encodeScalar_four c (by omega) hc.1
    have hquadruple := (quadruple?_eq_some_iff a b d e c (by omega)).mpr ⟨by omega, hc.1, h⟩
    rw [h]
    exact (decode?_four a b d e s (by omega) (by omega)).trans
      (by rw [hquadruple, Option.bind_some])

/-- The bytes are what the encoder writes for these scalar values. -/
def Encodes (cs : List CodePoint) (s : Bytes) : Prop :=
  (∀ c ∈ cs, c.isScalar = true) ∧ cs.flatMap encodeScalar = s

theorem Encodes.cons (c : Nat) (cs : List CodePoint) (s rest : Bytes)
    (hc : CodePoint.isScalar c = true) (hs : encodeScalar c = s) (h : Encodes cs rest) :
    Encodes (c :: cs) (s ++ rest) := by
  refine ⟨List.forall_mem_cons.mpr ⟨hc, h.1⟩, ?_⟩
  rw [List.flatMap_cons, hs, h.2]

theorem decode?_of_encodes (cs : List CodePoint) (s : Bytes) (h : Encodes cs s) :
    decode? s = some cs := by
  obtain ⟨hcs, rfl⟩ := h
  induction cs with
  | nil => rfl
  | cons c cs ih =>
    rw [List.forall_mem_cons] at hcs
    rw [List.flatMap_cons, decode?_encodeScalar_append c hcs.1, ih hcs.2]
    rfl

theorem encodes_of_decode? (s : Bytes) (cs : List CodePoint) (h : decode? s = some cs) :
    Encodes cs s := by
  -- One case for each way through the decoder, and in half of them it gives up.
  induction s using decode?.induct generalizing cs with
  | case1 =>
    obtain rfl := Option.some.inj h
    exact ⟨by simp, rfl⟩
  | case2 a s ha ih =>
    rw [decode?_one a s ha, Option.map_eq_some_iff] at h
    obtain ⟨cs, hcs, rfl⟩ := h
    obtain ⟨a', henc, ha'⟩ := encodeScalar_one a.toNat ha
    obtain rfl := UInt8.toNat_inj.mp ha'
    have hscalar := (CodePoint.isScalar_iff_ranges a'.toNat).mpr (by omega)
    exact Encodes.cons _ cs [a'] s hscalar henc (ih cs hcs)
  | case5 a ha b s hmin hmax ih =>
    rw [decode?_two a b s (by omega) hmax, Option.bind_eq_some_iff] at h
    obtain ⟨v, hv, h⟩ := h
    obtain ⟨cs, hcs, rfl⟩ := Option.map_eq_some_iff.mp h
    obtain ⟨hvmin, hvmax, henc⟩ := (pair?_eq_some_iff a b v (by omega) hmax).mp hv
    have hscalar := (CodePoint.isScalar_iff_ranges v).mpr (by omega)
    exact Encodes.cons v cs [a, b] s hscalar henc (ih cs hcs)
  | case7 a _ b _ hmin c s hmax ih =>
    rw [decode?_three a b c s (by omega) hmax, Option.bind_eq_some_iff] at h
    obtain ⟨v, hv, h⟩ := h
    obtain ⟨cs, hcs, rfl⟩ := Option.map_eq_some_iff.mp h
    obtain ⟨-, hvmax, hsurrogate, henc⟩ := (triple?_eq_some_iff a b c v (by omega) hmax).mp hv
    have hscalar := (CodePoint.isScalar_iff v).mpr ⟨by omega, hsurrogate⟩
    exact Encodes.cons v cs [a, b, c] s hscalar henc (ih cs hcs)
  | case9 a _ b _ _ c hmin d s hmax ih =>
    rw [decode?_four a b c d s (by omega) hmax, Option.bind_eq_some_iff] at h
    obtain ⟨v, hv, h⟩ := h
    obtain ⟨cs, hcs, rfl⟩ := Option.map_eq_some_iff.mp h
    obtain ⟨hvmin, hvmax, henc⟩ := (quadruple?_eq_some_iff a b c d v (by omega)).mp hv
    have hscalar := (CodePoint.isScalar_iff_ranges v).mpr (by omega)
    exact Encodes.cons v cs [a, b, c, d] s hscalar henc (ih cs hcs)
  | case3 | case4 | case6 | case8 | case10 =>
    rw [decode?.eq_def] at h
    simp [*] at h

theorem decode?_eq_some_iff (s : Bytes) (cs : List CodePoint) :
    decode? s = some cs ↔ Encodes cs s :=
  ⟨encodes_of_decode? s cs, decode?_of_encodes cs s⟩

/-! ## Surrogates -/

theorem holdsSurrogate_encodeScalar (c : Nat) (hc : CodePoint.isSurrogate c = true)
    (front back : Bytes) : HoldsSurrogate (front ++ (encodeScalar c ++ back)) := by
  rw [CodePoint.isSurrogate_iff] at hc
  obtain ⟨a, b, d, h, ha, hb, -⟩ := encodeScalar_three c (by omega) (by omega)
  have ha' : a.toNat = 0xED := by omega
  obtain rfl : a = 0xED := UInt8.toNat_inj.mp ha'
  rw [h]
  exact ⟨front, b, d, back, rfl, by omega, by omega⟩

theorem decode?_isSome_iff_valid (s : Bytes) (hs : ¬ HoldsSurrogate s) :
    (decode? s).isSome = true ↔ Valid s := by
  rw [Option.isSome_iff_exists, valid_iff]
  apply exists_congr
  intro cs
  rw [decode?_eq_some_iff]
  refine and_congr_left ?_
  rintro rfl
  apply forall₂_congr
  intro c hc
  rw [CodePoint.isScalar_iff]
  apply and_iff_left_of_imp
  intro hmax
  rw [← Bool.not_eq_true]
  intro hsurrogate
  obtain ⟨before, after, rfl⟩ := List.append_of_mem hc
  rw [List.flatMap_append, List.flatMap_cons] at hs
  exact hs (holdsSurrogate_encodeScalar c hsurrogate _ _)

end LexicalPath.Utf8
