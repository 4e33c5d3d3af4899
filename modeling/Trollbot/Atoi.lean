import Trollbot.ConfigEngine
import Trollbot.Foundation.Decimal

-- The numbers that atoi reads of what printf wrote.
namespace Trollbot.ConfigEngine
open Decimal

theorem isspace_minus : isspace '-' = false := by decide

theorem isspace_digit (digit : c.isDigit = true) : isspace c = false := by
  cases spaced : isspace c with
  | false => rfl
  | true =>
      simp only [isspace,List.mem_cons,List.not_mem_nil,or_false,decide_eq_true_eq] at spaced
      rcases spaced with rfl | rfl | rfl | rfl | rfl | rfl <;> cases digit

theorem digits_value (s : Str) : digits s = value s := by
  have folded : ∀ (l : Str) (m : Nat), (∀ c ∈ l, c.isDigit = true) →
      l.foldl (fun n c => 10 * n + ((c.toNat : Int) - ('0'.toNat : Int))) (m : Int) = (Nat.ofDigitChars 10 l m : Nat) := by
    intro l
    induction l with
    | nil => simp
    | cons c rest ih =>
        intro m digits
        have digit : 48 ≤ c.toNat := by
          have is := digits c (by simp)
          simp only [Char.isDigit,Bool.and_eq_true,decide_eq_true_eq] at is
          exact is.1
        have next : 10 * (m : Int) + ((c.toNat : Int) - ('0'.toNat : Int)) = ((10 * m + (c.toNat - '0'.toNat) : Nat) : Int) := by
          have zero : '0'.toNat = 48 := rfl
          rw [zero]
          omega
        rw [List.foldl_cons,next,ih _ (fun other member => digits other (by simp [member])),Nat.ofDigitChars_cons]
  have all : ∀ c ∈ s.takeWhile Char.isDigit, c.isDigit = true := fun c member => List.mem_takeWhile_imp member
  exact folded _ 0 all

-- Numbers are not spaces, and their signs are minus signs.
theorem printed_cases (n : Int) (rest : Str) : (n < 0 ∧ (printed n ++ rest).dropWhile isspace = '-' :: (Nat.toDigits 10 n.natAbs ++ rest)) ∨
    (0 ≤ n ∧ ∃ c s, (printed n ++ rest).dropWhile isspace = c :: s ∧ c :: s = Nat.toDigits 10 n.natAbs ++ rest ∧ c ≠ '-' ∧ c ≠ '+') := by
  unfold printed
  split
  · rename_i negative
    exact .inl ⟨negative,by simp [isspace_minus]⟩
  · rename_i positive
    obtain ⟨c,s,shape,digit⟩ := digits_head n.natAbs rest
    refine .inr ⟨by omega,c,s,by rw [shape]; simp [isspace_digit digit],shape.symm,?_,?_⟩
    all_goals
      rintro rfl
      cases digit

-- A number that is printed is read back, also a negative one.
theorem atoi_printed (n : Int) (ends : NoDigit rest) : atoi (printed n ++ rest) = n := by
  have read : ∀ m : Nat, digits (Nat.toDigits 10 m ++ rest) = m := fun m => by rw [digits_value,value_digits m ends]
  unfold atoi
  rcases printed_cases n rest with ⟨negative,first⟩ | ⟨positive,c,s,first,shape,minus,plus⟩
  · rw [first]
    simp only [read]
    omega
  · rw [first]
    split
    · rename_i same
      exact absurd (List.cons.inj same).1 minus
    · rename_i same
      exact absurd (List.cons.inj same).1 plus
    · rw [shape,read]
      omega

end Trollbot.ConfigEngine
