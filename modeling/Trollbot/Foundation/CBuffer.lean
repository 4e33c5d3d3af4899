import Mathlib.Data.List.Basic

-- Allocations, cell by cell. A cell is `none` while it is indeterminate, so that reading one, or
-- running past the end of the allocation, has no result. A Buffer is an allocation of bytes.
namespace CBuffer

abbrev Cells (α : Type) := List (Option α)
abbrev Buffer := Cells Char

def nul : Char := '\x00'

-- What is said of every member of a list is decided along the list, also where the type is finite.
instance (priority := 2000) decidableEach {α : Type} {p : α → Prop} [DecidablePred p] (s : List α) : Decidable (∀ a ∈ s, p a) :=
  List.decidableBAll p s

instance (priority := 2000) decidableSome {α : Type} {p : α → Prop} [DecidablePred p] (o : Option α) : Decidable (∀ a ∈ o, p a) :=
  Option.decidableForallMem o

def zeroed (n : Nat) : Buffer := List.replicate n (some nul)
def ofText (s : List Char) : Buffer := s.map some ++ [some nul]

-- The C string that starts an allocation.
def text : Buffer → Option (List Char)
  | [] => none
  | none :: _ => none
  | some c :: rest => if c = nul then some [] else (text rest).map (c :: ·)

def write {α : Type} (b : Cells α) (pos : Nat) (cells : Cells α) : Option (Cells α) :=
  if pos + cells.length ≤ b.length then some (b.take pos ++ cells ++ b.drop (pos + cells.length)) else none

-- What realloc leaves: the old contents, then indeterminate cells.
def resize {α : Type} (b : Cells α) (n : Nat) : Cells α := b.take n ++ List.replicate (n - b.length) none

-- A realloc that fills with zeros from one cell before the recorded end of the old allocation; with
-- a recorded end of 0 the subtraction wraps and the fill leaves the allocation.
def grow {α : Type} (zero : α) (b : Cells α) (size recorded : Nat) : Option (Cells α) :=
  if recorded < size then
    if recorded = 0 then none
    else write (resize b size) (recorded - 1) (List.replicate (size - recorded) (some zero))
  else some (resize b size)

@[simp] theorem zeroed_length : (zeroed n).length = n := by simp [zeroed]

@[simp] theorem ofText_length : (ofText s).length = s.length + 1 := by simp [ofText]

theorem zeroed_get (small : i < n) : (zeroed n)[i]? = some (some nul) := by
  simp [zeroed,small]

section
variable {α : Type} {b after cells : Cells α}

@[simp] theorem resize_length : (resize b n).length = n := by
  simp only [resize,List.length_append,List.length_take,List.length_replicate]; omega

theorem write_length (written : write b pos cells = some after) : after.length = b.length := by
  unfold write at written
  split at written
  · rename_i fits
    cases Option.some.inj written
    simp only [List.length_append,List.length_take,List.length_drop]
    omega
  · cases written

theorem resize_get (b : Cells α) (n i : Nat) :
    (resize b n)[i]? = if i < n then (if i < b.length then b[i]? else some none) else none := by
  by_cases old : i < b.length
  · by_cases small : i < n
    · rw [resize,List.getElem?_append_left (by simp; omega),List.getElem?_take_of_lt small]
      simp [old,small]
    · rw [List.getElem?_eq_none (by simp; omega),if_neg small]
  · by_cases small : i < n
    · rw [resize,List.getElem?_append_right (by simp; omega),List.getElem?_replicate,if_pos small,if_neg old,
        if_pos (by simp; omega)]
    · rw [List.getElem?_eq_none (by simp; omega),if_neg small]

theorem write_get (written : write b pos cells = some after) :
    after[i]? = if pos ≤ i ∧ i < pos + cells.length then cells[i - pos]? else b[i]? := by
  unfold write at written
  split at written
  · rename_i fits
    cases Option.some.inj written
    have front : (b.take pos).length = pos := by simp; omega
    by_cases low : i < pos
    · rw [List.append_assoc,List.getElem?_append_left (by omega),List.getElem?_take_of_lt low,if_neg (by omega)]
    · by_cases inside : i < pos + cells.length
      · rw [List.getElem?_append_left (by simp; omega),List.getElem?_append_right (by omega),front,
          if_pos ⟨by omega,inside⟩]
      · rw [List.getElem?_append_right (by simp; omega),List.getElem?_drop,if_neg (by omega)]
        congr 1
        simp only [List.length_append,front]
        omega
  · cases written

theorem write_fits (b : Cells α) (pos : Nat) (cells : Cells α) (fits : pos + cells.length ≤ b.length) :
    ∃ after, write b pos cells = some after := by
  simp [write,fits]

-- Behind what is kept a write replaces the cells that follow.
theorem write_split (front b cells : Cells α) (fits : cells.length ≤ b.length) :
    write (front ++ b) front.length cells = some (front ++ cells ++ b.drop cells.length) := by
  rw [write,if_pos (by simpa using fits),List.take_left,List.drop_append]
  simp

theorem resize_more (b : Cells α) (extra : Nat) : resize b (b.length + extra) = b ++ List.replicate extra none := by
  rw [resize,List.take_of_length_le (by omega),Nat.add_sub_cancel_left]

theorem grow_length (grown : grow zero b size recorded = some after) : after.length = size := by
  unfold grow at grown
  split at grown
  · split at grown
    · cases grown
    · rw [write_length grown,resize_length]
  · cases Option.some.inj grown
    exact resize_length

theorem grow_runs (zero : α) (b : Cells α) (size : Nat) (positive : 0 < recorded) :
    ∃ after, grow zero b size recorded = some after := by
  by_cases small : recorded < size
  · obtain ⟨filled,done⟩ := write_fits (resize b size) (recorded - 1)
      (List.replicate (size - recorded) (some zero)) (by simp; omega)
    exact ⟨filled,by simp [grow,small,Nat.ne_of_gt positive,done]⟩
  · exact ⟨resize b size,by simp [grow,small]⟩

-- Every cell of the grown allocation, including the last one, which the fill does not reach.
theorem grow_get (grown : grow zero b size recorded = some after) (inside : i < size) :
    after[i]? = if recorded ≤ i + 1 ∧ i + 1 < size then some (some zero)
      else if i < b.length then b[i]? else some none := by
  unfold grow at grown
  split at grown
  · rename_i small
    split at grown
    · cases grown
    · rename_i positive
      rw [write_get grown,resize_get,List.length_replicate,if_pos inside]
      by_cases filledHere : recorded ≤ i + 1 ∧ i + 1 < size
      · rw [if_pos (by omega),if_pos filledHere,List.getElem?_replicate,if_pos (by omega)]
      · rw [if_neg (by omega),if_neg filledHere]
  · rename_i large
    cases Option.some.inj grown
    have none : ¬(recorded ≤ i + 1 ∧ i + 1 < size) := by omega
    rw [resize_get,if_pos inside,if_neg none]

end

-- A text is read off its cells, the terminator after them.
theorem text_of_cells (clean : nul ∉ t) (cells : ∀ (i : Nat) (c : Char), t[i]? = some c → b[i]? = some (some c))
    (stop : b[t.length]? = some (some nul)) : text b = some t := by
  induction t generalizing b with
  | nil =>
      cases b with
      | nil => simp at stop
      | cons cell rest =>
          simp only [List.length_nil,List.getElem?_cons_zero,Option.some.injEq] at stop
          simp [stop,text]
  | cons c t ih =>
      cases b with
      | nil => simpa using cells 0 c
      | cons cell rest =>
          have here : cell = some c := by simpa using cells 0 c rfl
          have inner : text rest = some t := by
            refine ih (fun member => clean (by simp [member])) ?_ (by simpa using stop)
            intro i d found
            simpa using cells (i+1) d (by simpa using found)
          have notNul : c ≠ nul := fun same => clean (by simp [same])
          simp [here,text,notNul,inner]

theorem cells_of_text (read : text b = some t) :
    nul ∉ t ∧ (∀ (i : Nat) (c : Char), t[i]? = some c → b[i]? = some (some c)) ∧ b[t.length]? = some (some nul) := by
  induction b generalizing t with
  | nil => simp [text] at read
  | cons cell rest ih =>
      cases cell with
      | none => simp [text] at read
      | some c =>
          by_cases stop : c = nul
          · simp only [text,stop,if_true,Option.some.injEq] at read
            subst read
            simp [stop]
          · simp only [text,stop,if_false,Option.map_eq_some_iff] at read
            obtain ⟨tail,inner,rfl⟩ := read
            obtain ⟨clean,cells,last⟩ := ih inner
            refine ⟨?_,?_,by simpa using last⟩
            · simpa [Ne.symm stop] using clean
            · intro i d found
              cases i with
              | zero => simpa using found
              | succ i => simpa using cells i d (by simpa using found)

theorem text_bound (read : text b = some t) : t.length < b.length := by
  have stop := (cells_of_text read).2.2
  exact (List.getElem?_eq_some_iff.mp stop).1

theorem text_ofText (clean : nul ∉ t) : text (ofText t) = some t := by
  refine text_of_cells clean ?_ ?_
  · intro i c found
    obtain ⟨bound,value⟩ := List.getElem?_eq_some_iff.mp found
    simp [ofText,List.getElem?_append_left,bound,value]
  · simp [ofText]

end CBuffer
