import Mathlib.Data.List.TakeWhile

-- Numbers as decimal text, written and read back.
namespace Decimal

-- As %d prints them.
def printed (n : Int) : List Char := if n < 0 then '-' :: Nat.toDigits 10 n.natAbs else Nat.toDigits 10 n.natAbs

-- The digits that a text begins with.
def value (s : List Char) : Nat := Nat.ofDigitChars 10 (s.takeWhile Char.isDigit) 0

-- A text that does not go on with a digit.
def NoDigit (rest : List Char) : Prop := ∀ c, rest.head? = some c → c.isDigit = false

theorem digits_digit (n : Nat) : ∀ c ∈ Nat.toDigits 10 n, c.isDigit = true :=
  fun _ member => Nat.isDigit_of_mem_toDigits (by omega) (by omega) member

theorem takeWhile_ended {p : α → Bool} {l rest : List α} (inside : ∀ x ∈ l, p x = true) (ends : ∀ x, rest.head? = some x → p x = false) :
    (l ++ rest).takeWhile p = l := by
  rw [List.takeWhile_append_of_pos inside]
  cases rest with
  | nil => simp
  | cons x rest =>
      have stop := ends x rfl
      simp [stop]

theorem value_digits (n : Nat) (ends : NoDigit rest) : value (Nat.toDigits 10 n ++ rest) = n := by
  rw [value,takeWhile_ended (digits_digit n) ends,Nat.ofDigitChars_toDigits (by omega) (by omega)]

theorem digits_head (n : Nat) (rest : List Char) : ∃ c s, Nat.toDigits 10 n ++ rest = c :: s ∧ c.isDigit = true := by
  obtain ⟨c,s,shape⟩ := List.exists_cons_of_ne_nil (Nat.toDigits_ne_nil (n := n) (b := 10))
  exact ⟨c,s ++ rest,by rw [shape]; rfl,digits_digit n c (by simp [shape])⟩

theorem printed_clean (n : Int) : ∀ c ∈ printed n, c = '-' ∨ c.isDigit = true := by
  intro c member
  unfold printed at member
  split at member
  · rcases List.mem_cons.mp member with rfl | inside
    · exact .inl rfl
    · exact .inr (digits_digit _ c inside)
  · exact .inr (digits_digit _ c member)

theorem printed_some (n : Int) : printed n ≠ [] := by
  unfold printed
  split
  · simp
  · exact Nat.toDigits_ne_nil

end Decimal
