import Mathlib.Data.List.Basic

-- Additions and removals of keys, of which the last one counts.
namespace History
variable {κ : Type} [DecidableEq κ]

def latest (k : κ) (changes : List (κ × Bool)) : Option Bool := (changes.reverse.find? (fun change => change.1 = k)).map (·.2)

-- What is there after the changes.
def after (changes : List (κ × Bool)) (holds : κ → Bool) (k : κ) : Bool := (latest k changes).getD (holds k)

@[simp] theorem after_nil (holds : κ → Bool) : after [] holds = holds := rfl

theorem latest_append (k : κ) (first second : List (κ × Bool)) :
    latest k (first ++ second) = (latest k second).or (latest k first) := by
  unfold latest
  rw [List.reverse_append,List.find?_append]
  cases second.reverse.find? (fun change => change.1 = k) <;> rfl

theorem after_append (first second : List (κ × Bool)) (holds : κ → Bool) : after (first ++ second) holds = after second (after first holds) := by
  funext k
  unfold after
  rw [latest_append]
  cases latest k second <;> rfl

theorem after_one (key : κ) (there : Bool) (holds : κ → Bool) (k : κ) : after [(key,there)] holds k = if key = k then there else holds k := by
  unfold after latest
  by_cases same : key = k <;> simp [same]

theorem latest_none {k : κ} {changes : List (κ × Bool)} (away : ∀ change ∈ changes, change.1 ≠ k) : latest k changes = none := by
  simp only [latest,Option.map_eq_none_iff,List.find?_eq_none,List.mem_reverse,decide_eq_true_eq]
  exact away

theorem after_away {k : κ} {changes : List (κ × Bool)} (away : ∀ change ∈ changes, change.1 ≠ k) (holds : κ → Bool) :
    after changes holds k = holds k := by
  rw [after,latest_none away]
  rfl

-- Keys under a renaming that keeps them apart.
theorem after_map {ι : Type} [DecidableEq ι] {f : κ → ι} (apart : ∀ a b, f a = f b → a = b) (changes : List (κ × Bool)) (holds : ι → Bool)
    (k : κ) : after (changes.map (fun change => (f change.1,change.2))) holds (f k) = after changes (fun k => holds (f k)) k := by
  unfold after latest
  rw [← List.map_reverse,List.find?_map]
  have same : ((fun change : ι × Bool => decide (change.1 = f k)) ∘ fun change : κ × Bool => (f change.1,change.2)) =
      fun change => decide (change.1 = k) := by
    funext change
    simp only [Function.comp_apply,decide_eq_decide]
    exact ⟨apart _ _,congrArg f⟩
  rw [same]
  cases changes.reverse.find? (fun change => change.1 = k) <;> rfl

end History
