/-! # Positions in a sequence -/

namespace LexicalPath.Search

variable {α : Type}

/-- The index of the first element at or after `start` that satisfies `p`. -/
def next? (p : α → Bool) (l : List α) (start : Nat) : Option Nat :=
  ((l.drop start).findIdx? p).map (· + start)

def last? (p : α → Bool) : List α → Option Nat
  | [] => none
  | a :: l =>
    match last? p l with
    | some i => some (i + 1)
    | none => if p a then some 0 else none

theorem last?_append (p : α → Bool) (front back : List α) :
    last? p (front ++ back) = ((last? p back).map (front.length + ·)).or (last? p front) := by
  induction front with
  | nil => cases h : last? p back <;> simp [last?, h]
  | cons a front ih =>
    rw [List.cons_append, last?, ih]
    cases last? p back with
    | none => rfl
    | some i => simp [Nat.add_right_comm]

theorem last?_eq_none_iff (p : α → Bool) (l : List α) :
    last? p l = none ↔ ∀ a ∈ l, p a = false := by
  induction l with
  | nil => simp [last?]
  | cons a l ih =>
    rw [last?, List.forall_mem_cons, ← ih]
    cases last? p l <;> simp

theorem last?_split (p : α → Bool) (front : List α) (a : α) (back : List α) (ha : p a = true)
    (hback : ∀ b ∈ back, p b = false) : last? p (front ++ a :: back) = some front.length := by
  rw [last?_append, last?, (last?_eq_none_iff p back).mpr hback]
  simp [ha]

theorem last?_cases (p : α → Bool) (l : List α) :
    (last? p l = none ∧ ∀ a ∈ l, p a = false) ∨
      ∃ front a back, l = front ++ a :: back ∧ p a = true ∧ (∀ b ∈ back, p b = false) ∧
        last? p l = some front.length := by
  induction l with
  | nil => exact Or.inl ⟨rfl, by simp⟩
  | cons a l ih =>
    rcases ih with ⟨-, hl⟩ | ⟨front, b, back, rfl, hb, hback, -⟩
    · cases ha : p a with
      | true => exact Or.inr ⟨[], a, l, rfl, ha, hl, last?_split p [] a l ha hl⟩
      | false =>
        have hall : ∀ b ∈ a :: l, p b = false := List.forall_mem_cons.mpr ⟨ha, hl⟩
        exact Or.inl ⟨(last?_eq_none_iff p _).mpr hall, hall⟩
    · exact Or.inr ⟨a :: front, b, back, rfl, hb, hback, last?_split p (a :: front) b back hb hback⟩

theorem last?_lt (p : α → Bool) (l : List α) (i : Nat) (h : last? p l = some i) : i < l.length := by
  rcases last?_cases p l with ⟨hnone, -⟩ | ⟨front, a, back, rfl, -, -, hsome⟩
  · rw [hnone] at h
    cases h
  · obtain rfl := Option.some.inj (hsome.symm.trans h)
    simp

/-- The index at which `block` first occurs. -/
def block? [BEq α] (block : List α) : List α → Option Nat
  | [] => if block.isEmpty then some 0 else none
  | a :: l => if block.isPrefixOf (a :: l) then some 0 else (block? block l).map (· + 1)

theorem block?_isSome_iff [BEq α] [LawfulBEq α] (block l : List α) :
    (block? block l).isSome ↔ block <:+: l := by
  induction l with
  | nil => simp [block?]
  | cons a l ih =>
    rw [List.infix_cons_iff, ← ih, ← List.isPrefixOf_iff_prefix, block?]
    cases block.isPrefixOf (a :: l) <;> simp

/-- The first index at or after `start` at which `block` occurs. An empty block occurs everywhere
up to the end of the sequence. -/
def nextBlock? [BEq α] (block l : List α) (start : Nat) : Option Nat :=
  if start ≤ l.length then (block? block (l.drop start)).map (· + start) else none

end LexicalPath.Search
