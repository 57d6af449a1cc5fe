import Mathlib.Data.Nat.Digits.Lemmas

/-!
# Numerals

Numbers as sequences of digit characters, the most significant digit first, and their
scanning from the front of a text. The digit characters and their values are parameters;
the base is that of the writer, which the scanner has to be given as well.
-/

namespace Theory

variable {C : Type}

/-- The digits of a number, the least significant first; zero has a digit, too. -/
def digitsOf (base number : Nat) : List Nat :=
  number % base :: Nat.digits base (number / base)

def numeral (digitChar : Nat → C) (base number : Nat) : List C :=
  (digitsOf base number).reverse.map digitChar

/-- The digits at the start of a text. -/
def leadingDigits (digitValue : C → Option Nat) : List C → List Nat
  | [] => []
  | char :: rest =>
      match digitValue char with
      | some digit => digit :: leadingDigits digitValue rest
      | none => []

/-- The number with these digits, the most significant first. -/
def valueOf (base : Nat) (digits : List Nat) : Nat :=
  digits.foldl (fun value digit => value * base + digit) 0

theorem valueOf_reverse (base : Nat) (digits : List Nat) :
    valueOf base digits.reverse = Nat.ofDigits base digits := by
  rw [valueOf, List.foldl_reverse]
  induction digits with
  | nil => rfl
  | cons digit digits ih =>
      rw [List.foldr_cons, ih, Nat.ofDigits_cons, Nat.mul_comm, Nat.add_comm]

theorem ofDigits_digitsOf (base number : Nat) :
    Nat.ofDigits base (digitsOf base number) = number := by
  rw [digitsOf, Nat.ofDigits_cons, Nat.ofDigits_digits]
  exact_mod_cast Nat.mod_add_div number base

theorem digitsOf_lt {base number : Nat} (large : 1 < base) :
    ∀ digit ∈ digitsOf base number, digit < base := by
  intro digit mem
  rcases List.mem_cons.mp mem with rfl | later
  · exact Nat.mod_lt _ (Nat.zero_lt_of_lt large)
  · exact Nat.digits_lt_base large later

theorem length_digitsOf_le {base number count : Nat} (large : 1 < base)
    (fits : number < base ^ (count + 1)) : (digitsOf base number).length ≤ count + 1 := by
  have quotient : number / base < base ^ count := by
    apply Nat.div_lt_of_lt_mul
    rwa [Nat.pow_succ, Nat.mul_comm] at fits
  have short := (Nat.digits_length_le_iff large (number / base)).mpr quotient
  rw [digitsOf, List.length_cons]
  exact Nat.succ_le_succ short

theorem numeral_ne_nil (digitChar : Nat → C) (base number : Nat) :
    numeral digitChar base number ≠ [] := by
  simp [numeral, digitsOf]

theorem length_numeral (digitChar : Nat → C) (base number : Nat) :
    (numeral digitChar base number).length = (digitsOf base number).length := by
  rw [numeral, List.length_map, List.length_reverse]

/-- There are only digits in a numeral. -/
theorem exists_digit_of_mem_numeral {digitChar : Nat → C} {base : Nat} (large : 1 < base)
    {number : Nat} {char : C} (mem : char ∈ numeral digitChar base number) :
    ∃ digit < base, digitChar digit = char := by
  rcases List.mem_map.mp mem with ⟨digit, digitMem, rfl⟩
  exact ⟨digit, digitsOf_lt large digit (List.mem_reverse.mp digitMem), rfl⟩

section Scanning

variable {digitChar : Nat → C} {digitValue : C → Option Nat} {base : Nat}
  (decodes : ∀ digit < base, digitValue (digitChar digit) = some digit)

include decodes

/-- Digits are scanned up to a character that is none. -/
theorem leadingDigits_map {digits : List Nat} (small : ∀ digit ∈ digits, digit < base)
    {char : C} (stops : digitValue char = none) (rest : List C) :
    leadingDigits digitValue (digits.map digitChar ++ char :: rest) = digits := by
  induction digits with
  | nil => simp [leadingDigits, stops]
  | cons digit digits ih =>
      have tail := ih fun other mem => small other (List.mem_cons_of_mem digit mem)
      rw [List.map_cons, List.cons_append, leadingDigits,
        decodes digit (small digit List.mem_cons_self)]
      exact congrArg (digit :: ·) tail

/-- Digits are scanned up to the end of the text. -/
theorem leadingDigits_map_nil {digits : List Nat} (small : ∀ digit ∈ digits, digit < base) :
    leadingDigits digitValue (digits.map digitChar) = digits := by
  induction digits with
  | nil => rfl
  | cons digit digits ih =>
      have tail := ih fun other mem => small other (List.mem_cons_of_mem digit mem)
      rw [List.map_cons, leadingDigits, decodes digit (small digit List.mem_cons_self)]
      exact congrArg (digit :: ·) tail

end Scanning

end Theory

/-!
## Odometers

The digits of a number, the least significant first, are advanced by one: the first digit that
is not the last one of the base goes up, and the digits in front of it start over. After the
last number of so many digits all of them start over.
-/

namespace Theory

variable {base : Nat}

def advance (base : Nat) : List Nat → List Nat
  | [] => []
  | digit :: digits =>
      if digit + 1 < base then (digit + 1) :: digits else 0 :: advance base digits

/-- The number of the digits is followed by the next one, or by zero. -/
theorem ofDigits_advance (large : 1 < base) {digits : List Nat}
    (small : ∀ digit ∈ digits, digit < base) :
    Nat.ofDigits base (advance base digits) =
      (Nat.ofDigits base digits + 1) % base ^ digits.length := by
  induction digits with
  | nil => rw [advance, Nat.ofDigits_nil, List.length_nil, Nat.pow_zero, Nat.mod_one]
  | cons digit digits ih =>
      rcases List.forall_mem_cons.mp small with ⟨smallHead, smallTail⟩
      have bound := Nat.ofDigits_lt_base_pow_length large smallTail
      rw [advance, List.length_cons, Nat.pow_succ', Nat.ofDigits_cons]
      split
      · have inside :
            digit + base * Nat.ofDigits base digits + 1 < base * base ^ digits.length := by
          have row := Nat.mul_le_mul_left base (Nat.succ_le_of_lt bound)
          rw [Nat.succ_eq_add_one, Nat.mul_add, Nat.mul_one] at row
          omega
        rw [Nat.mod_eq_of_lt inside, Nat.ofDigits_cons, Nat.add_right_comm]
      · rename_i startsOver
        have last : digit + 1 = base := Nat.le_antisymm smallHead (Nat.le_of_not_lt startsOver)
        have carried : digit + base * Nat.ofDigits base digits + 1 =
            base * (Nat.ofDigits base digits + 1) := by
          rw [Nat.mul_add, Nat.mul_one]
          omega
        rw [carried, Nat.mul_mod_mul_left, Nat.ofDigits_cons, ih smallTail, Nat.zero_add]

section Counting

variable {α : Type*} {next : α → α} {number : α → Nat} {modulus : Nat} {reached : α → Prop}
  (closed : ∀ a, reached a → reached (next a)) (bounded : ∀ a, reached a → number a < modulus)
  (successor : ∀ a, reached a → number (next a) = (number a + 1) % modulus)

include bounded successor

/-- Different numbers are followed by different ones. -/
theorem number_eq_of_next {a other : α} (isReached : reached a) (otherReached : reached other)
    (same : number (next a) = number (next other)) : number a = number other := by
  rw [successor a isReached, successor other otherReached] at same
  exact (Nat.ModEq.add_right_cancel' 1 same).eq_of_lt_of_lt (bounded a isReached)
    (bounded other otherReached)

include closed

theorem number_iterate {a : α} (isReached : reached a) (steps : Nat) :
    reached (next^[steps] a) ∧ number (next^[steps] a) = (number a + steps) % modulus := by
  induction steps with
  | zero => exact ⟨isReached, (Nat.mod_eq_of_lt (bounded a isReached)).symm⟩
  | succ steps ih =>
      rw [Function.iterate_succ_apply']
      refine ⟨closed _ ih.1, ?_⟩
      rw [successor _ ih.1, ih.2, Nat.mod_add_mod, Nat.add_assoc]

/-- No number comes back before all of them have been passed. -/
theorem number_iterate_ne {a : α} (isReached : reached a) {i j : Nat} (before : i < j)
    (within : j < i + modulus) : number (next^[i] a) ≠ number (next^[j] a) := by
  intro same
  rw [(number_iterate closed bounded successor isReached i).2,
    (number_iterate closed bounded successor isReached j).2] at same
  have apart := (Nat.modEq_iff_dvd' before.le).mp (Nat.ModEq.add_left_cancel' (number a) same)
  have atLeast := Nat.le_of_dvd (Nat.sub_pos_of_lt before) apart
  omega

end Counting

end Theory
