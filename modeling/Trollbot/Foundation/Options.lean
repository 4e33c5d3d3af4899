import Mathlib.Data.List.Basic

-- Options read from a list of keys and values, one pair after the other.
namespace Options

section
variable {κ ν : Type} [DecidableEq κ]

def values (key : κ) (pairs : List (κ × ν)) : List ν := (pairs.filter (fun pair => pair.1 = key)).map Prod.snd

@[simp] theorem values_nil (key : κ) : values key ([] : List (κ × ν)) = [] := rfl

@[simp] theorem values_append (key : κ) (first second : List (κ × ν)) :
    values key (first ++ second) = values key first ++ values key second := by simp [values]

theorem values_cons (key : κ) (pair : κ × ν) (rest : List (κ × ν)) :
    values key (pair :: rest) = if pair.1 = key then pair.2 :: values key rest else values key rest := by
  unfold values
  by_cases same : pair.1 = key
  · simp [same]
  · simp [same]

end

section
variable {ι : Type}

-- Every value is taken.
def keepLast (x : ι) (taken : List ι) : ι := taken.foldl (fun _ v => v) x

@[simp] theorem keepLast_nil (x : ι) : keepLast x [] = x := rfl
@[simp] theorem keepLast_one (x v : ι) : keepLast x [v] = v := rfl

@[simp] theorem keepLast_append (x : ι) (first second : List ι) :
    keepLast x (first ++ second) = keepLast (keepLast x first) second := by simp [keepLast]

theorem keepLast_same (x : ι) (taken : List ι) : keepLast x taken = x ↔ ∀ v, taken.getLast? = some v → v = x := by
  rcases List.eq_nil_or_concat taken with rfl | ⟨before,last,rfl⟩
  · simp [keepLast]
  · simp [keepLast]

variable [DecidableEq ι]

-- A value is only taken while the option still has the value it starts with.
def keepFirst (unset : ι) (x : ι) (taken : List ι) : ι := taken.foldl (fun x v => if x = unset then v else x) x

@[simp] theorem keepFirst_nil (unset x : ι) : keepFirst unset x [] = x := rfl

@[simp] theorem keepFirst_append (unset x : ι) (first second : List ι) :
    keepFirst unset x (first ++ second) = keepFirst unset (keepFirst unset x first) second := by simp [keepFirst]

theorem keepFirst_set {unset x : ι} (set : x ≠ unset) (taken : List ι) : keepFirst unset x taken = x := by
  induction taken with
  | nil => rfl
  | cons v rest ih => simpa [keepFirst,set] using ih

-- More values make no difference where the option is set, or where they are all as good as none.
theorem keepFirst_same (unset x : ι) (taken : List ι) :
    keepFirst unset x taken = x ↔ x ≠ unset ∨ ∀ v ∈ taken, v = unset := by
  by_cases set : x = unset
  · subst set
    induction taken with
    | nil => simp [keepFirst]
    | cons v rest ih =>
        by_cases same : v = x
        · subst same
          simpa [keepFirst] using ih
        · have stays : keepFirst x v rest = v := keepFirst_set same rest
          simp only [keepFirst,List.foldl_cons,if_true] at stays ⊢
          rw [stays]
          simp [same]
  · simp [keepFirst_set set,set]

-- The same in terms of the values before and the ones that come later.
def Given (unset : ι) (old new : List ι) : Prop := (∃ v ∈ old, v ≠ unset) ∨ ∀ v ∈ new, v = unset

theorem keepFirst_unset (unset : ι) (taken : List ι) : keepFirst unset unset taken = unset ↔ ∀ v ∈ taken, v = unset := by
  rw [keepFirst_same]
  simp

theorem keepFirst_given (unset : ι) (old new : List ι) :
    keepFirst unset unset (old ++ new) = keepFirst unset unset old ↔ Given unset old new := by
  rw [keepFirst_append,keepFirst_same,Ne,keepFirst_unset,Given]
  simp

end

section
variable {ι : Type}

def LastKept (x : ι) (old new : List ι) : Prop := ∀ v, new.getLast? = some v → v = keepLast x old

theorem keepLast_kept (x : ι) (old new : List ι) : keepLast x (old ++ new) = keepLast x old ↔ LastKept x old new := by
  rw [keepLast_append,keepLast_same,LastKept]

-- A list that goes on from another, item by item related to it.
inductive GoesOn (R : ι → ι → Prop) : List ι → List ι → Prop where
  | more : GoesOn R [] news
  | kept : R old new → GoesOn R olds news → GoesOn R (old :: olds) (new :: news)

variable {R : ι → ι → Prop}

theorem GoesOn.imp {S : ι → ι → Prop} (goesOn : GoesOn R a b) (gives : ∀ x ∈ a, ∀ y, R x y → S x y) : GoesOn S a b := by
  induction goesOn with
  | more => exact .more
  | kept related _ ih => exact .kept (gives _ (by simp) _ related) (ih (fun x member => gives x (by simp [member])))

-- What keeps a fold over the longer list going keeps one over the shorter list going.
theorem GoesOn.folds {σ τ : Type} {f : σ → ι → Option σ} {g : τ → ι → Option τ} {a b : List ι} {s : σ} {t t' : τ} (Like : σ → τ → Prop)
    (steps : ∀ x y s t t', R x y → Like s t → g t y = some t' → ∃ s', f s x = some s' ∧ Like s' t')
    (goesOn : GoesOn R a b) (start : Like s t) (done : b.foldlM g t = some t') : ∃ s', a.foldlM f s = some s' := by
  induction goesOn generalizing s t with
  | more => exact ⟨s,rfl⟩
  | kept related _ ih =>
      rw [List.foldlM_cons] at done
      obtain ⟨middle,first,rest⟩ := Option.bind_eq_some_iff.mp done
      obtain ⟨middle',first',like⟩ := steps _ _ _ _ _ related start first
      obtain ⟨s',done'⟩ := ih like rest
      exact ⟨s',by rw [List.foldlM_cons,first']; exact done'⟩

theorem GoesOn.filter {p : ι → Bool} (alike : ∀ x y, R x y → p x = p y) (goesOn : GoesOn R a b) :
    GoesOn R (a.filter p) (b.filter p) := by
  induction goesOn with
  | more => exact .more
  | @kept old new olds news grown _ ih =>
      have same := alike old new grown
      by_cases here : p new = true
      · rw [List.filter_cons_of_pos here,List.filter_cons_of_pos (same.trans here)]
        exact .kept grown ih
      · rw [List.filter_cons_of_neg here,List.filter_cons_of_neg (by rw [same]; exact here)]
        exact ih

theorem folds_each {σ : Type} {f : σ → ι → Option σ} {list : List ι} {s s' : σ} (done : list.foldlM f s = some s') : ∀ x ∈ list, ∃ t t', f t x = some t' := by
  induction list generalizing s with
  | nil => simp
  | cons x rest ih =>
      rw [List.foldlM_cons] at done
      obtain ⟨middle,first,after⟩ := Option.bind_eq_some_iff.mp done
      rw [List.forall_mem_cons]
      exact ⟨⟨s,middle,first⟩,ih after⟩

theorem GoesOn.length (goesOn : GoesOn R a b) : a.length ≤ b.length := by
  induction goesOn with
  | more => exact Nat.zero_le _
  | kept _ _ ih => exact Nat.succ_le_succ ih

end

end Options
