import Mathlib.Data.List.Nodup

-- Singly linked records. `next` is what a record leads to: nothing for a place that holds no
-- record, and a null pointer for the last record of a list.
namespace Paths

-- The records from one pointer up to another.
def Span (next : Nat → Option (Option Nat)) : Option Nat → List Nat → Option Nat → Prop
  | p,[],q => p = q
  | p,a :: rest,q => p = some a ∧ ∃ onward, next a = some onward ∧ Span next onward rest q

-- A whole list.
def Path (next : Nat → Option (Option Nat)) (p : Option Nat) (l : List Nat) : Prop := Span next p l none

section
variable {next later : Nat → Option (Option Nat)}

@[simp] theorem path_nil : Path next p [] ↔ p = none := Iff.rfl

theorem span_append : Span next p (l ++ m) q ↔ ∃ middle, Span next p l middle ∧ Span next middle m q := by
  induction l generalizing p with
  | nil => simp [Span]
  | cons a rest ih =>
      constructor
      · rintro ⟨rfl,onward,leads,more⟩
        obtain ⟨middle,first,second⟩ := ih.mp more
        exact ⟨middle,⟨rfl,onward,leads,first⟩,second⟩
      · rintro ⟨middle,⟨rfl,onward,leads,first⟩,second⟩
        exact ⟨rfl,onward,leads,ih.mpr ⟨middle,first,second⟩⟩

theorem span_frame (same : ∀ a ∈ l, later a = next a) (span : Span next p l q) : Span later p l q := by
  induction l generalizing p with
  | nil => exact span
  | cons a rest ih =>
      obtain ⟨start,onward,leads,more⟩ := span
      refine ⟨start,onward,?_,ih (fun b member => same b (by simp [member])) more⟩
      rw [same a (by simp),leads]

theorem span_member (span : Span next p l q) (member : a ∈ l) : ∃ onward, next a = some onward := by
  induction l generalizing p with
  | nil => cases member
  | cons b rest ih =>
      obtain ⟨-,onward,leads,more⟩ := span
      rcases List.mem_cons.mp member with rfl | inside
      · exact ⟨onward,leads⟩
      · exact ih more inside

theorem path_unique (first : Path next p l) (second : Path next p m) : l = m := by
  induction l generalizing p m with
  | nil =>
      cases m with
      | nil => rfl
      | cons b others =>
          rw [path_nil] at first
          rw [first] at second
          cases second.1
  | cons a rest ih =>
      obtain ⟨rfl,onward,leads,more⟩ := first
      cases m with
      | nil => cases second
      | cons b others =>
          obtain ⟨same,onward',leads',more'⟩ := second
          cases same
          rw [leads] at leads'
          cases leads'
          rw [ih more more']

-- No record is met twice: the list from its first place would be the one from its second.
theorem path_nodup (path : Path next p l) : l.Nodup := by
  induction l generalizing p with
  | nil => exact List.nodup_nil
  | cons a rest ih =>
      obtain ⟨rfl,onward,leads,more⟩ := path
      refine List.nodup_cons.mpr ⟨?_,ih more⟩
      intro again
      obtain ⟨pre,post,split⟩ := List.append_of_mem again
      have whole : Path next (some a) (a :: rest) := ⟨rfl,onward,leads,more⟩
      have shorter : Path next (some a) (a :: post) := by
        rw [split] at more
        obtain ⟨middle,-,tail⟩ := span_append.mp more
        obtain rfl := tail.1
        exact tail
      have same := congrArg List.length (path_unique whole shorter)
      simp only [split,List.length_cons,List.length_append] at same
      omega

theorem path_split : Path next p (pre ++ a :: post) ↔ Span next p pre (some a) ∧ ∃ onward, next a = some onward ∧ Path next onward post := by
  constructor
  · intro path
    obtain ⟨middle,first,same,onward,leads,more⟩ := span_append.mp path
    rw [same] at first
    exact ⟨first,onward,leads,more⟩
  · rintro ⟨first,onward,leads,more⟩
    exact span_append.mpr ⟨some a,first,rfl,onward,leads,more⟩

theorem path_relink (path : Path next p (pre ++ a :: post)) (same : ∀ b ∈ pre, later b = next b) (leads : later a = some onward)
    (rest : Path later onward others) : Path later p (pre ++ a :: others) :=
  path_split.mpr ⟨span_frame same (path_split.mp path).1,onward,leads,rest⟩

theorem path_head (path : Path next p l) : p = l.head? := by
  cases l with
  | nil => exact path
  | cons a rest => exact path.1

end

-- Memory for records. The place of a freed record stays empty.
abbrev Store (β : Type) := List (Option β)

section
variable {β : Type}

def read (s : Store β) (a : Nat) : Option β := s[a]?.join
def write (s : Store β) (a : Nat) (x : Option β) : Store β := s.set a x
def alloc (s : Store β) (x : β) : Store β := s ++ [some x]

theorem read_inside {s : Store β} (here : read s a = some x) : a < s.length := by
  by_contra outside
  rw [read,List.getElem?_eq_none (by omega)] at here
  cases here

theorem read_write {s : Store β} (here : read s a = some old) (x : Option β) :
    read (write s a x) b = if b = a then x else read s b := by
  have inside := read_inside here
  by_cases same : b = a
  · subst same
    simp [read,write,inside]
  · simp [read,write,same,List.getElem?_set_ne (Ne.symm same)]

theorem read_alloc (s : Store β) (x : β) : read (alloc s x) b = if b = s.length then some x else read s b := by
  by_cases new : b = s.length
  · subst new
    simp [read,alloc]
  · rw [if_neg new]
    rcases Nat.lt_or_gt_of_ne new with old | beyond
    · simp [read,alloc,List.getElem?_append_left old]
    · rw [read,read,alloc,List.getElem?_eq_none (by simp; omega),List.getElem?_eq_none (by omega)]

end

end Paths
