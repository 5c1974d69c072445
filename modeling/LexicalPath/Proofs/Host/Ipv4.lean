import LexicalPath.Host.Basic
import LexicalPath.Proofs.Failure
import LexicalPath.Proofs.Text.Pieces
import Mathlib.Algebra.Ring.Nat

/-!
# The grammar of IPv4 addresses

An address is four numbers up to 255 in their shortest decimal form, with dots in between. It is
split into its octets first and they are checked after that. Reading them one after the other, with
little room for the values of their digits, comes to the same result.
-/

namespace LexicalPath.Ipv4

/-! ## Decimal forms -/

/-- The shortest decimal form of a number. -/
def decimalText (n : Nat) : Text := (Nat.toDigits 10 n).map CodeUnit.ofChar

theorem ofChar_digitChar (d : Nat) (hd : d < 10) :
    CodeUnit.ofChar d.digitChar = UInt16.ofNat (48 + d) := by
  unfold CodeUnit.ofChar
  rw [Nat.toNat_digitChar_of_lt_ten hd]

theorem ofNat_digit (u : CodeUnit) (hu : u.isDigit = true) :
    u.toNat - 48 < 10 ∧ UInt16.ofNat (48 + (u.toNat - 48)) = u := by
  simp only [CodeUnit.isDigit, Bool.and_eq_true, decide_eq_true_eq] at hu
  have hnum : 48 + (u.toNat - 48) = u.toNat := by omega
  rw [hnum, UInt16.ofNat_toNat]
  exact ⟨by omega, rfl⟩

theorem decimalText_digit (u : CodeUnit) (hu : u.isDigit = true) :
    decimalText (u.toNat - 48) = [u] := by
  obtain ⟨hlt, hunit⟩ := ofNat_digit u hu
  unfold decimalText
  rw [Nat.toDigits_of_lt_base hlt, List.map_singleton, ofChar_digitChar _ hlt, hunit]

theorem decimalText_append (n : Nat) (u : CodeUnit) (hn : 0 < n) (hu : u.isDigit = true) :
    decimalText n ++ [u] = decimalText (n * 10 + (u.toNat - 48)) := by
  have hlt := (ofNat_digit u hu).1
  rw [← decimalText_digit u hu, Nat.mul_comm]
  unfold decimalText
  rw [← List.map_append, Nat.toDigits_append_toDigits (by decide) hn hlt]

theorem decimalText_foldl (t : Text) (ht : ∀ u ∈ t, u.isDigit = true) (n : Nat) (hn : 0 < n) :
    decimalText (t.foldl (fun n u => n * 10 + (u.toNat - 48)) n) = decimalText n ++ t := by
  induction t generalizing n with
  | nil => simp
  | cons u t ih =>
    rw [List.forall_mem_cons] at ht
    rw [List.foldl_cons, ih ht.2 _ (by omega), ← decimalText_append n u hn ht.1]
    simp

theorem decimalText_digitsValue (u : CodeUnit) (t : Text) (ht : ∀ v ∈ u :: t, v.isDigit = true)
    (hzero : t = [] ∨ u ≠ CodeUnit.ofChar '0') :
    decimalText (digitsValue (u :: t)) = u :: t := by
  rw [List.forall_mem_cons] at ht
  unfold digitsValue
  rw [List.foldl_cons, Nat.zero_mul, Nat.zero_add]
  rcases hzero with rfl | hne
  · exact decimalText_digit u ht.1
  · have hpos : 0 < u.toNat - 48 := by
      have hdigit := ht.1
      simp only [CodeUnit.isDigit, Bool.and_eq_true, decide_eq_true_eq] at hdigit
      have hnum : u.toNat ≠ 48 := fun h => hne (UInt16.toNat_inj.mp h)
      omega
    rw [decimalText_foldl t ht.2 _ hpos, decimalText_digit u ht.1]
    rfl

/-! ## Octets -/

theorem isOctet_decimalText (n : Nat) (hn : n ≤ 255) : isOctet (decimalText n) = true := by
  have hall : ∀ n < 256, isOctet (decimalText n) = true := by decide +kernel
  exact hall n (by omega)

theorem decimalText_of_isOctet (t : Text) (h : isOctet t = true) :
    digitsValue t ≤ 255 ∧ decimalText (digitsValue t) = t := by
  simp only [isOctet, Bool.and_eq_true, Bool.or_eq_true, decide_eq_true_eq, List.all_eq_true,
    beq_iff_eq, bne_iff_ne] at h
  obtain ⟨⟨⟨⟨hpos, -⟩, hdigits⟩, hvalue⟩, hzero⟩ := h
  obtain ⟨u, t, rfl⟩ := List.exists_cons_of_length_pos hpos
  refine ⟨hvalue, decimalText_digitsValue u t hdigits ?_⟩
  simpa using hzero

theorem map_decimalText_digitsValue (octets : List Text)
    (h : ∀ octet ∈ octets, decimalText (digitsValue octet) = octet) :
    (octets.map digitsValue).map decimalText = octets := by
  rw [List.map_map]
  exact (List.map_congr_left h).trans (List.map_id octets)

/-! ## Addresses -/

/-- Four numbers up to 255 in decimal form. -/
def Dotted (t : Text) : Prop :=
  ∃ ns : List Nat, ns.length = 4 ∧ (∀ n ∈ ns, n ≤ 255) ∧
    t = [CodeUnit.dot].intercalate (ns.map decimalText)

theorem isDigit_of_mem_octet (t : Text) (h : isOctet t = true) : ∀ u ∈ t, u.isDigit = true := by
  simp only [isOctet, Bool.and_eq_true, List.all_eq_true] at h
  exact h.1.1.2

theorem isAddress_iff_dotted (t : Text) : isAddress t = true ↔ Dotted t := by
  unfold isAddress
  rw [Bool.and_eq_true, beq_iff_eq, List.all_eq_true]
  constructor
  · rintro ⟨hlength, hoctets⟩
    refine ⟨(t.splitOnP (· == CodeUnit.dot)).map digitsValue, by simpa using hlength, ?_, ?_⟩
    · rw [List.forall_mem_map]
      exact fun octet hmem => (decimalText_of_isOctet octet (hoctets octet hmem)).1
    · rw [map_decimalText_digitsValue _ fun octet hmem =>
        (decimalText_of_isOctet octet (hoctets octet hmem)).2]
      exact (List.intercalate_splitOn CodeUnit.dot).symm
  · rintro ⟨ns, hlength, hns, rfl⟩
    have hoctets : ∀ octet ∈ ns.map decimalText, isOctet octet = true := by
      rw [List.forall_mem_map]
      exact fun n hn => isOctet_decimalText n (hns n hn)
    have hdot : ∀ octet ∈ ns.map decimalText, CodeUnit.dot ∉ octet := fun octet hmem hdot =>
      absurd (isDigit_of_mem_octet octet (hoctets octet hmem) _ hdot) (by decide)
    have hne : ns.map decimalText ≠ [] := by
      rintro hnil
      rw [List.map_eq_nil_iff.mp hnil] at hlength
      cases hlength
    have hsplit : ([CodeUnit.dot].intercalate (ns.map decimalText)).splitOnP (· == CodeUnit.dot) =
        ns.map decimalText :=
      List.splitOn_intercalate CodeUnit.dot hdot hne
    rw [hsplit]
    exact ⟨by simpa using hlength, hoctets⟩

theorem mem_dotted (t : Text) (h : Dotted t) (u : CodeUnit) (hu : u ∈ t) :
    u = CodeUnit.dot ∨ u.isDigit = true := by
  rw [← isAddress_iff_dotted, isAddress, Bool.and_eq_true, List.all_eq_true] at h
  by_cases hdot : u = CodeUnit.dot
  · exact Or.inl hdot
  · obtain ⟨octet, hoctet, hmem⟩ :=
      exists_mem_splitOnP (· == CodeUnit.dot) t u hu (by simpa using hdot)
    exact Or.inr (isDigit_of_mem_octet octet (h.2 octet hoctet) u hmem)

theorem dot_mem_dotted (t : Text) (h : Dotted t) : CodeUnit.dot ∈ t := by
  by_contra hdot
  have hsplit : t.splitOnP (· == CodeUnit.dot) = [t] := List.splitOn_eq_singleton hdot
  rw [← isAddress_iff_dotted, isAddress, hsplit] at h
  cases h

/-! ## Shortest forms -/

/-- Digits with the value of the number, possibly with zeros in front. -/
structure IsDecimal (t : Text) (n : Nat) : Prop where
  ne_nil : t ≠ []
  digits : ∀ u ∈ t, u.isDigit = true
  value_eq : digitsValue t = n

/-- The number cannot be written with fewer digits. -/
def IsShortest (t : Text) (n : Nat) : Prop :=
  IsDecimal t n ∧ ∀ t', IsDecimal t' n → t.length ≤ t'.length

theorem toNat_ofChar_digit (c : Char) (hc : c.isDigit = true) :
    (CodeUnit.ofChar c).toNat = c.toNat ∧ (CodeUnit.ofChar c).isDigit = true := by
  have hrange : 48 ≤ c.toNat ∧ c.toNat ≤ 57 := by
    simpa [Char.isDigit, UInt32.le_iff_toNat_le] using hc
  have hnum : (CodeUnit.ofChar c).toNat = c.toNat := by
    unfold CodeUnit.ofChar
    rw [UInt16.toNat_ofNat']
    omega
  refine ⟨hnum, ?_⟩
  unfold CodeUnit.isDigit
  rw [hnum, Bool.and_eq_true, decide_eq_true_eq, decide_eq_true_eq]
  exact hrange

theorem isDecimal_decimalText (n : Nat) : IsDecimal (decimalText n) n := by
  have hdigit : ∀ c ∈ Nat.toDigits 10 n, c.isDigit = true :=
    fun c hc => Nat.isDigit_of_mem_toDigits (by decide) (by decide) hc
  refine ⟨by simp [decimalText], ?_, ?_⟩
  · unfold decimalText
    rw [List.forall_mem_map]
    exact fun c hc => (toNat_ofChar_digit c (hdigit c hc)).2
  · calc digitsValue (decimalText n)
        = (Nat.toDigits 10 n).foldl (fun n c => n * 10 + ((CodeUnit.ofChar c).toNat - 48)) 0 :=
          List.foldl_map
      _ = (Nat.toDigits 10 n).foldl (fun n c => 10 * n + (c.toNat - '0'.toNat)) 0 := by
          apply List.foldl_ext
          intro m c hc
          rw [(toNat_ofChar_digit c (hdigit c hc)).1, Nat.mul_comm]
          rfl
      _ = n := Nat.ofDigitChars_ten_toDigits

theorem digitsValue_concat (t : Text) (u : CodeUnit) :
    digitsValue (t ++ [u]) = digitsValue t * 10 + (u.toNat - 48) := by
  unfold digitsValue
  rw [List.foldl_append, List.foldl_cons, List.foldl_nil]

theorem digitsValue_lt (t : Text) (ht : ∀ u ∈ t, u.isDigit = true) :
    digitsValue t < 10 ^ t.length := by
  induction t using List.reverseRecOn with
  | nil => decide
  | append_singleton t u ih =>
    rw [List.forall_mem_append, List.forall_mem_singleton] at ht
    have hvalue := ih ht.1
    have hlt := (ofNat_digit u ht.2).1
    rw [digitsValue_concat, List.length_append, List.length_singleton, Nat.pow_succ]
    omega

theorem decimalText_length_le (t : Text) (n : Nat) (h : IsDecimal t n) :
    (decimalText n).length ≤ t.length := by
  have hvalue := digitsValue_lt t h.digits
  rw [h.value_eq] at hvalue
  unfold decimalText
  rw [List.length_map]
  exact (Nat.length_toDigits_le_iff (by decide) (List.length_pos_iff.mpr h.ne_nil)).mpr hvalue

theorem isShortest_iff (t : Text) (n : Nat) : IsShortest t n ↔ t = decimalText n := by
  constructor
  · rintro ⟨⟨hne, hdigits, rfl⟩, hleast⟩
    obtain ⟨u, t, rfl⟩ := List.exists_cons_of_ne_nil hne
    refine (decimalText_digitsValue u t hdigits ?_).symm
    by_contra hzero
    rw [not_or, not_not] at hzero
    obtain ⟨hrest, rfl⟩ := hzero
    -- Without the zero in front the digits have the same value.
    have hshorter : IsDecimal t (digitsValue (CodeUnit.ofChar '0' :: t)) :=
      ⟨hrest, fun v hv => hdigits v (List.mem_cons_of_mem _ hv), rfl⟩
    have hlength := hleast t hshorter
    rw [List.length_cons] at hlength
    omega
  · rintro rfl
    exact ⟨isDecimal_decimalText n, fun t' h => decimalText_length_le t' n h⟩

/-! ## Reading in one pass -/

/-- Why an address is not read to its end. -/
inductive Refusal where
  | malformed
  /-- The digits of an octet add up to more than there is room for. -/
  | overflow
  deriving Repr, DecidableEq

/-- The value of the digits so far with one more digit behind them. -/
def addDigit (room value : Nat) (u : CodeUnit) : Except Refusal Nat :=
  if !u.isDigit then .error .malformed
  else if room < value * 10 + (u.toNat - 48) then .error .overflow
  else .ok (value * 10 + (u.toNat - 48))

/-- Adds up the digits of an octet. Its length is checked before that, and the value behind it. -/
def readOctet (room : Nat) (octet : Text) : Except Refusal Nat :=
  if octet.length < 1 ∨ 3 < octet.length then .error .malformed
  else do
    let value ← octet.foldlM (addDigit room) 0
    if 255 < value then .error .malformed
    else if 1 < octet.length ∧ octet.head? = some (CodeUnit.ofChar '0') then .error .malformed
    else .ok value

/-- Counts the octets while they are read, and stops at a fifth one. -/
def countOctets (room : Nat) : Nat → List Text → Except Refusal Nat
  | count, [] => .ok count
  | count, octet :: octets => do
    let _ ← readOctet room octet
    if 4 < count + 1 then .error .malformed else countOctets room (count + 1) octets

def readAddress (room : Nat) (t : Text) : Except Refusal Nat :=
  countOctets room 0 (t.splitOnP (· == CodeUnit.dot))

theorem foldlM_addDigit (room : Nat) (front t : Text) (hfront : ∀ u ∈ front, u.isDigit = true)
    (hroom : 10 ^ (front.length + t.length) ≤ room + 1) :
    t.foldlM (addDigit room) (digitsValue front) =
      if t.all CodeUnit.isDigit then .ok (digitsValue (front ++ t)) else .error .malformed := by
  induction t generalizing front with
  | nil => simp
  | cons u t ih =>
    rw [List.foldlM_cons, List.all_cons]
    cases hu : u.isDigit with
    | false => simp [addDigit, hu]
    | true =>
      have hmore : ∀ v ∈ front ++ [u], v.isDigit = true := by
        rw [List.forall_mem_append, List.forall_mem_singleton]
        exact ⟨hfront, hu⟩
      have hlt := digitsValue_lt (front ++ [u]) hmore
      have hpow : 10 ^ (front ++ [u]).length ≤ 10 ^ (front.length + (u :: t).length) :=
        Nat.pow_le_pow_right (by decide) (by simp)
      have hstep : addDigit room (digitsValue front) u = .ok (digitsValue (front ++ [u])) := by
        rw [digitsValue_concat] at hlt ⊢
        unfold addDigit
        rw [hu, if_neg (by decide), if_neg (by omega)]
      have hrest := ih (front ++ [u]) hmore (by
        rw [List.length_append, List.length_singleton, Nat.add_assoc, Nat.add_comm 1]
        exact hroom)
      rw [hstep, ok_bind, hrest, List.append_assoc, List.singleton_append, Bool.true_and]

theorem isOctet_iff (t : Text) :
    isOctet t = true ↔ ¬ (t.length < 1 ∨ 3 < t.length) ∧ t.all CodeUnit.isDigit = true ∧
      ¬ 255 < digitsValue t ∧ ¬ (1 < t.length ∧ t.head? = some (CodeUnit.ofChar '0')) := by
  unfold isOctet
  simp only [Bool.and_eq_true, Bool.or_eq_true, decide_eq_true_eq, beq_iff_eq, bne_iff_ne, ne_eq]
  constructor
  · rintro ⟨⟨⟨⟨hpos, hmax⟩, hdigits⟩, hvalue⟩, hzero⟩
    refine ⟨by omega, hdigits, by omega, ?_⟩
    rintro ⟨hlong, hhead⟩
    exact hzero.elim (by omega) (fun hne => hne hhead)
  · rintro ⟨hlength, hdigits, hvalue, hzero⟩
    refine ⟨⟨⟨⟨by omega, by omega⟩, hdigits⟩, by omega⟩, ?_⟩
    by_cases hone : t.length = 1
    · exact Or.inl hone
    · exact Or.inr fun hhead => hzero ⟨by omega, hhead⟩

theorem readOctet_eq (octet : Text) :
    readOctet 999 octet = if isOctet octet then .ok (digitsValue octet) else .error .malformed := by
  unfold readOctet
  by_cases hlength : octet.length < 1 ∨ 3 < octet.length
  · rw [if_pos hlength, if_neg fun h => ((isOctet_iff octet).mp h).1 hlength]
  have hpow : 10 ^ octet.length ≤ 10 ^ 3 := Nat.pow_le_pow_right (by decide) (by omega)
  have hvalue : octet.foldlM (addDigit 999) 0 =
      if octet.all CodeUnit.isDigit then .ok (digitsValue octet) else .error .malformed :=
    foldlM_addDigit 999 [] octet (by simp) (by simpa using hpow)
  rw [if_neg hlength, hvalue]
  by_cases hdigits : octet.all CodeUnit.isDigit = true
  · rw [if_pos hdigits, ok_bind]
    by_cases hmax : 255 < digitsValue octet
    · rw [if_pos hmax, if_neg fun h => ((isOctet_iff octet).mp h).2.2.1 hmax]
    by_cases hzero : 1 < octet.length ∧ octet.head? = some (CodeUnit.ofChar '0')
    · rw [if_neg hmax, if_pos hzero, if_neg fun h => ((isOctet_iff octet).mp h).2.2.2 hzero]
    · rw [if_neg hmax, if_neg hzero, if_pos ((isOctet_iff octet).mpr ⟨hlength, hdigits, hmax, hzero⟩)]
  · rw [if_neg hdigits, if_neg fun h => hdigits ((isOctet_iff octet).mp h).2.1, error_bind]

theorem countOctets_eq (count : Nat) (octets : List Text) (hcount : count ≤ 4) :
    countOctets 999 count octets =
      if octets.all isOctet = true ∧ count + octets.length ≤ 4 then .ok (count + octets.length)
      else .error .malformed := by
  induction octets generalizing count with
  | nil => simp [countOctets, hcount]
  | cons octet octets ih =>
    rw [countOctets, readOctet_eq, List.all_cons, List.length_cons]
    cases hoctet : isOctet octet with
    | false => simp
    | true =>
      rw [if_pos rfl, ok_bind, Bool.true_and]
      by_cases hfifth : 4 < count + 1
      · rw [if_pos hfifth, if_neg (by omega)]
      · rw [if_neg hfifth, ih (count + 1) (by omega), Nat.add_assoc, Nat.add_comm 1]

theorem readAddress_eq (t : Text) :
    (isAddress t = true ↔ readAddress 999 t = .ok 4) ∧ readAddress 999 t ≠ .error .overflow := by
  unfold isAddress readAddress
  rw [countOctets_eq 0 _ (by decide), Nat.zero_add, Bool.and_eq_true, beq_iff_eq]
  split
  · next h =>
    rw [Except.ok.injEq]
    exact ⟨and_iff_left h.1, by simp⟩
  · next h =>
    refine ⟨?_, by simp⟩
    simp only [reduceCtorEq, iff_false]
    rintro ⟨hlength, hoctets⟩
    exact h ⟨hoctets, Nat.le_of_eq hlength⟩

/-- **IPv4 addresses.** An address is four numbers up to 255 with a dot between each two, and none
of them could be written with fewer digits. One pass over the text finds it, and room for values up
to 999 is enough for the digits that are added up on the way. -/
theorem isAddress_iff_shortest (t : Text) :
    (isAddress t = true ↔ ∃ octets : List Text, octets.length = 4 ∧
      (∀ octet ∈ octets, ∃ n ≤ 255, IsShortest octet n) ∧
        t = [CodeUnit.dot].intercalate octets) ∧
    (isAddress t = true ↔ readAddress 999 t = .ok 4) ∧ readAddress 999 t ≠ .error .overflow := by
  refine ⟨(isAddress_iff_dotted t).trans ⟨?_, ?_⟩, readAddress_eq t⟩
  · rintro ⟨ns, hlength, hns, rfl⟩
    refine ⟨ns.map decimalText, by rw [List.length_map, hlength], ?_, rfl⟩
    rw [List.forall_mem_map]
    exact fun n hn => ⟨n, hns n hn, (isShortest_iff _ n).mpr rfl⟩
  · rintro ⟨octets, hlength, hoctets, rfl⟩
    have hvalue : ∀ octet ∈ octets,
        digitsValue octet ≤ 255 ∧ decimalText (digitsValue octet) = octet := by
      intro octet hmem
      obtain ⟨n, hn, hshortest⟩ := hoctets octet hmem
      rw [hshortest.1.value_eq]
      exact ⟨hn, ((isShortest_iff octet n).mp hshortest).symm⟩
    refine ⟨octets.map digitsValue, by rw [List.length_map, hlength], ?_, ?_⟩
    · rw [List.forall_mem_map]
      exact fun octet hmem => (hvalue octet hmem).1
    · rw [map_decimalText_digitsValue octets fun octet hmem => (hvalue octet hmem).2]

end LexicalPath.Ipv4
