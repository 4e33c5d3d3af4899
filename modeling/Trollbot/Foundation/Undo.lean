import Mathlib.Data.List.Basic
import Mathlib.Logic.Function.Iterate

-- Steps that take each other back.
namespace Undo
variable {α β : Type}

-- What a loop did is undone by the loop over the same values backwards.
theorem foldl_undone {f g : β → α → α} (undoes : ∀ b x, g b (f b x) = x) (l : List β) (x : α) :
    l.reverse.foldl (fun x b => g b x) (l.foldl (fun x b => f b x) x) = x := by
  induction l generalizing x with
  | nil => rfl
  | cons b rest ih => simp only [List.reverse_cons,List.foldl_append,List.foldl_cons,List.foldl_nil,ih,undoes]

-- Of two that undo each other, as often as one likes.
theorem iterate_undone {f g : α → α} (undoes : ∀ x, g (f x) = x) (n : Nat) (x : α) : Nat.iterate g n (Nat.iterate f n x) = x :=
  Function.LeftInverse.iterate undoes n x

end Undo
