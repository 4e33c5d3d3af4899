import Trollbot.Foundation.CBuffer
import Trollbot.Foundation.Machine

-- Reading a C string with an index. A read past the first terminator has no result, also inside the allocation.
namespace CBuffer
open Machine

def peek (b : Buffer) (i : Nat) : Option Char := if some nul ∈ b.take i then none else b[i]?.join

-- The loop "while (b[i] != '\0' && goes(b[i])) i++". The test may read too.
def skipFor (b : Buffer) (goes : Char → Option Bool) : Nat → Nat → Option Nat
  | 0,_ => none
  | fuel+1,i => do
    let c ← peek b i
    if c = nul then some i else
    let more ← goes c
    if more then skipFor b goes fuel (i+1) else some i

def skip (b : Buffer) (goes : Char → Option Bool) (i : Nat) : Option Nat := skipFor b goes (b.length + 1) i

-- The loop "for (;source[i] != stop;i++, j++) copy[j] = source[i]".
def copyFor (stop : Char) (source : Buffer) : Nat → Nat → Buffer → Nat → Option (Nat × Buffer)
  | 0,_,_,_ => none
  | fuel+1,i,copy,j => do
    let c ← peek source i
    if c = stop then some (i,copy) else
    let copy ← write copy j [some c]
    copyFor stop source fuel (i+1) copy (j+1)

def copyTo (stop : Char) (source : Buffer) (i : Nat) (copy : Buffer) (j : Nat) : Option (Nat × Buffer) :=
  copyFor stop source (source.length + 1) i copy j

-- The string that starts at an index.
def textFrom (b : Buffer) (i : Nat) : Option (List Char) := do
  let _ ← peek b i
  text (b.drop i)

-- An allocation of zeros that is padded from its start.
def padded (n : Nat) (w : List Char) : Buffer := w.map some ++ List.replicate (n - w.length) (some nul)

-- A machine that goes on with what it reads.
def look {σ ρ : Type} (read : Option α) (go : α → Outcome σ ρ) : Outcome σ ρ :=
  match read with
  | none => .fault
  | some c => go c

@[simp] theorem look_some (c : α) (go : α → Outcome σ ρ) : look (some c) go = go c := rfl

-- An index of the text and what is left from there.
def Stands (s : List Char) (i : Nat) (rest : List Char) : Prop := i ≤ s.length ∧ s.drop i = rest

theorem split_pieces (text : List Char) : ∀ w ∈ text.splitOn sep, sep ∉ w := by
  induction text with
  | nil => simp
  | cons c text ih =>
      rw [List.splitOn_cons_eq_if_modifyHead]
      split
      · simpa using ih
      · rename_i letter
        have differs : sep ≠ c := fun same => letter (by simpa using same.symm)
        intro w member
        cases words : text.splitOn sep with
        | nil => exact absurd words (List.splitOn_ne_nil _ _)
        | cons first rest =>
            rw [words] at ih member
            rcases List.mem_cons.mp member with rfl | later
            · simp [differs,ih first (by simp)]
            · exact ih w (by simp [later])

theorem stands_first (s : List Char) : Stands s 0 s := ⟨Nat.zero_le _,rfl⟩

theorem Stands.next (stands : Stands s i (c :: rest)) : Stands s (i + 1) rest := by
  obtain ⟨-,left⟩ := stands
  have inside : i < s.length := by
    have longer := congrArg List.length left
    simp only [List.length_drop,List.length_cons] at longer
    omega
  exact ⟨inside,by rw [← List.drop_drop,left]; rfl⟩

theorem Stands.length (stands : Stands s i rest) : i + rest.length = s.length := by
  obtain ⟨inside,left⟩ := stands
  rw [← left,List.length_drop]
  omega

theorem Stands.subset (stands : Stands s i rest) : rest ⊆ s := by
  rw [← stands.2]
  exact List.drop_subset _ _

theorem zeroed_padded : zeroed n = padded n [] := by simp [zeroed,padded]

theorem padded_length (room : w.length ≤ n) : (padded n w).length = n := by
  simp only [padded,List.length_append,List.length_map,List.length_replicate]
  omega

theorem padded_write (room : w.length < n) (c : Char) : write (padded n w) w.length [some c] = some (padded n (w ++ [c])) := by
  have size := padded_length (Nat.le_of_lt room)
  have zeros : List.replicate (n - w.length) (some nul) = some nul :: List.replicate (n - (w ++ [c]).length) (some nul) := by
    rw [← List.replicate_succ]
    congr 1
    simp only [List.length_append,List.length_singleton]
    omega
  have front : (padded n w).take w.length = w.map some := by simp [padded]
  have back : (padded n w).drop (w.length + 1) = List.replicate (n - (w ++ [c]).length) (some nul) := by
    rw [padded,zeros,List.drop_append,List.drop_eq_nil_of_le (by simp)]
    simp
  rw [write,if_pos (by simp [size]; omega),front,List.length_singleton,back]
  simp [padded]

theorem padded_text (clean : nul ∉ w) (room : w.length < n) : text (padded n w) = some w := by
  refine text_of_cells clean ?_ ?_
  · intro i c found
    obtain ⟨bound,value⟩ := List.getElem?_eq_some_iff.mp found
    simp [padded,List.getElem?_append_left,bound,value]
  · simp only [padded,List.getElem?_append_right,List.length_map,Nat.le_refl,Nat.sub_self]
    rw [List.getElem?_replicate,if_pos (by omega)]

section
variable {b : Buffer} {s rest : List Char}

theorem before_stop (read : text b = some s) (inside : i ≤ s.length) : some nul ∉ b.take i := by
  obtain ⟨clean,cells,-⟩ := cells_of_text read
  intro member
  obtain ⟨j,small,found⟩ := List.mem_iff_getElem.mp member
  simp only [List.length_take] at small
  have inText : j < s.length := by omega
  have cell := cells j s[j] (List.getElem?_eq_getElem inText)
  rw [List.getElem_take] at found
  rw [List.getElem?_eq_getElem (by omega),found] at cell
  have same : nul = s[j] := Option.some.inj (Option.some.inj cell)
  exact clean (same ▸ List.getElem_mem inText)

theorem peek_stands (read : text b = some s) (stands : Stands s i rest) : peek b i = some (rest.headD nul) := by
  obtain ⟨inside,left⟩ := stands
  obtain ⟨-,cells,stop⟩ := cells_of_text read
  rw [peek,if_neg (before_stop read inside)]
  cases rest with
  | nil =>
      have last : i = s.length := by
        have longer := congrArg List.length left
        simp only [List.length_drop,List.length_nil] at longer
        omega
      rw [last,stop]
      rfl
  | cons c rest =>
      have here : s[i]? = some c := by
        rw [← List.head?_drop,left]
        rfl
      rw [cells i c here]
      rfl

theorem stands_clean (read : text b = some s) (stands : Stands s i (c :: rest)) : c ≠ nul := by
  rintro rfl
  exact (cells_of_text read).1 (stands.subset (by simp))

theorem peek_past (read : text b = some s) (past : s.length < i) : peek b i = none := by
  obtain ⟨-,-,stop⟩ := cells_of_text read
  obtain ⟨bound,last⟩ := List.getElem?_eq_some_iff.mp stop
  rw [peek,if_pos]
  refine List.mem_iff_getElem.mpr ⟨s.length,by simp; omega,?_⟩
  rw [List.getElem_take,last]

theorem skipFor_stands (read : text b = some s) {goes : Char → Option Bool} {g : Char → Bool}
    (takes : ∀ c, c ≠ nul → goes c = some (g c)) (stands : Stands s i rest) (fuel : Nat) (enough : rest.length < fuel) :
    ∃ j, skipFor b goes fuel i = some j ∧ Stands s j (rest.dropWhile g) := by
  induction rest generalizing i fuel with
  | nil =>
      cases fuel with
      | zero => omega
      | succ fuel => exact ⟨i,by simp [skipFor,peek_stands read stands],stands⟩
  | cons c rest ih =>
      cases fuel with
      | zero => omega
      | succ fuel =>
          have clean := stands_clean read stands
          by_cases more : g c = true
          · obtain ⟨j,skipped,there⟩ := ih stands.next fuel (by simpa using enough)
            refine ⟨j,?_,by rwa [List.dropWhile_cons_of_pos more]⟩
            simp [skipFor,peek_stands read stands,clean,takes c clean,more,skipped]
          · refine ⟨i,?_,by rwa [List.dropWhile_cons_of_neg more]⟩
            simp [skipFor,peek_stands read stands,clean,takes c clean,more]

theorem skip_stands (read : text b = some s) {goes : Char → Option Bool} {g : Char → Bool}
    (takes : ∀ c, c ≠ nul → goes c = some (g c)) (stands : Stands s i rest) :
    ∃ j, skip b goes i = some j ∧ Stands s j (rest.dropWhile g) := by
  have bound := text_bound read
  have left := stands.length
  exact skipFor_stands read takes stands _ (by omega)

theorem textFrom_stands (read : text b = some s) (stands : Stands s i rest) : textFrom b i = some rest := by
  simp only [textFrom,peek_stands read stands,Option.bind_eq_bind,Option.bind_some]
  obtain ⟨inside,left⟩ := stands
  obtain ⟨clean,cells,stop⟩ := cells_of_text read
  refine text_of_cells ?_ ?_ ?_
  · intro member
    rw [← left] at member
    exact clean (List.drop_subset _ _ member)
  · intro j c found
    rw [← left,List.getElem?_drop] at found
    rw [List.getElem?_drop]
    exact cells _ c found
  · rw [List.getElem?_drop,← left,List.length_drop,Nat.add_sub_cancel' inside]
    exact stop

-- A copy up to a character that is there, or up to the terminator.
theorem copyTo_stop (read : text b = some s) (front : List Char) (plain : stop ∉ front) (stands : Stands s i (front ++ back))
    (stops : back.headD nul = stop) (room : w.length + front.length ≤ n) :
    ∃ j, copyTo stop b i (padded n w) w.length = some (j,padded n (w ++ front)) ∧ Stands s j back := by
  have bound := text_bound read
  have left := stands.length
  have enough : front.length < b.length + 1 := by
    simp only [List.length_append] at left
    omega
  unfold copyTo
  generalize b.length + 1 = fuel at enough
  induction front generalizing i w fuel with
  | nil =>
      cases fuel with
      | zero => omega
      | succ fuel =>
          refine ⟨i,?_,stands⟩
          rw [List.nil_append] at stands
          simp only [copyFor,peek_stands read stands,stops,Option.bind_eq_bind,Option.bind_some,if_true,List.append_nil]
  | cons c front ih =>
      cases fuel with
      | zero => omega
      | succ fuel =>
          have differs : c ≠ stop := fun same => plain (by simp [same])
          simp only [List.length_cons] at room enough
          obtain ⟨j,copied,there⟩ := @ih (i + 1) (w ++ [c]) (fun member => plain (by simp [member])) stands.next (by simp; omega)
            (by have := stands.next.length; simpa using this) fuel (by omega)
          refine ⟨j,?_,there⟩
          rw [List.length_append,List.length_singleton] at copied
          simp [copyFor,peek_stands read stands,differs,padded_write (show w.length < n by omega),copied]

theorem copyFor_past (read : text b = some s) (past : s.length < i) (fuel : Nat) : copyFor stop b fuel i copy j = none := by
  cases fuel with
  | zero => rfl
  | succ fuel => simp [copyFor,peek_past read past]

-- A copy up to a character that is not there leaves the text.
theorem copyTo_past (read : text b = some s) (plain : stop ∉ rest) (terminator : stop ≠ nul) (stands : Stands s i rest) (copy : Buffer) (j : Nat) :
    copyTo stop b i copy j = none := by
  unfold copyTo
  generalize b.length + 1 = fuel
  induction rest generalizing i copy j fuel with
  | nil =>
      cases fuel with
      | zero => rfl
      | succ fuel =>
          have left := stands.length
          simp only [List.length_nil] at left
          have past : s.length < i + 1 := by omega
          simp only [copyFor,peek_stands read stands,Option.bind_eq_bind,Option.bind_some,List.headD_nil,if_neg terminator.symm]
          cases write copy j [some nul] with
          | none => rfl
          | some copy => exact copyFor_past read past fuel
  | cons c rest ih =>
      cases fuel with
      | zero => rfl
      | succ fuel =>
          have differs : c ≠ stop := fun same => plain (by simp [same])
          simp only [copyFor,peek_stands read stands,Option.bind_eq_bind,Option.bind_some,List.headD_cons,if_neg differs]
          cases write copy j [some c] with
          | none => rfl
          | some copy => exact ih (fun member => plain (by simp [member])) stands.next copy (j + 1) fuel

end

end CBuffer
