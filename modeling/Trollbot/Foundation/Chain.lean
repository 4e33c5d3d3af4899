import Mathlib.Data.List.Basic

-- Doubly linked lists held by a pointer that need not be the head. `items` is what the next links
-- reach from the pointer; `behind`, nearest first, is reached by the prev links only.
structure Chain (α : Type) where
  behind : List α
  items : List α

namespace Chain
variable {α : Type}

def empty : Chain α := ⟨[],[]⟩

-- Through a null pointer nothing behind is left.
def add (c : Chain α) (x : α) : Chain α :=
  match c.items with
  | [] => ⟨[],[x]⟩
  | _ => ⟨c.behind,c.items ++ [x]⟩

-- Unlinks the item at a place and moves the pointer to its predecessor, or to its successor when
-- it has none.
def del (c : Chain α) : Nat → Chain α
  | 0 =>
    match c.behind with
    | [] => ⟨[],c.items.tail⟩
    | last :: rest => ⟨rest,last :: c.items.tail⟩
  | place+1 =>
    match c.items.drop place with
    | [] => c
    | kept :: rest => ⟨(c.items.take place).reverse ++ c.behind,kept :: rest.tail⟩

def modify (c : Chain α) (place : Nat) (f : α → α) : Chain α := { c with items := c.items.modify place f }

@[simp] theorem add_items (c : Chain α) (x : α) : (c.add x).items = c.items ++ [x] := by
  cases items : c.items with
  | nil => simp [add,items]
  | cons first rest => simp [add,items]

@[simp] theorem modify_items (c : Chain α) (place : Nat) (f : α → α) :
    (c.modify place f).items = c.items.modify place f := rfl

-- Where an item can be taken out without losing or regaining another one: second, or first with
-- nothing behind the pointer.
def Unlinks (c : Chain α) (place : Nat) : Prop := place = 1 ∨ place = 0 ∧ c.behind = []

theorem del_items {c : Chain α} (unlinks : c.Unlinks place) : (c.del place).items = c.items.eraseIdx place := by
  rcases unlinks with rfl | ⟨rfl,clear⟩
  · cases items : c.items with
    | nil => simp [del,items]
    | cons kept rest => cases rest <;> simp [del,items]
  · cases items : c.items with
    | nil => simp [del,items,clear]
    | cons kept rest => simp [del,items,clear]

theorem del_behind {c : Chain α} (unlinks : c.Unlinks place) (clear : c.behind = []) : (c.del place).behind = [] := by
  rcases unlinks with rfl | ⟨rfl,-⟩
  · cases items : c.items with
    | nil => simp [del,items,clear]
    | cons kept rest => simp [del,items,clear]
  · simp [del,clear]

theorem del_sublist (c : Chain α) (place : Nat) : (c.del (place + 1)).items.Sublist c.items := by
  cases after : c.items.drop place with
  | nil => simp [del,after]
  | cons kept rest =>
      have inside : (kept :: rest).Sublist c.items := after ▸ List.drop_sublist place c.items
      simp only [del,after]
      exact ((List.tail_sublist rest).cons_cons kept).trans inside

-- What comes before the rest after a deletion: the predecessor only.
theorem del_split {c : Chain α} (split : c.items = front ++ x :: rest) :
    (c.del front.length).items = (front.getLast?.or c.behind.head?).toList ++ rest := by
  rcases List.eq_nil_or_concat front with rfl | ⟨early,last,rfl⟩
  · cases behind : c.behind with
    | nil => simp [del,behind,split]
    | cons near far => simp [del,behind,split]
  · have after : c.items.drop early.length = last :: x :: rest := by simp [split]
    simp [del,after]

theorem front_kept {c : Chain α} {front : List α} :
    (front.getLast?.or c.behind.head?).toList = front ↔ c.Unlinks front.length := by
  unfold Unlinks
  rcases List.eq_nil_or_concat front with rfl | ⟨early,last,rfl⟩
  · cases behind : c.behind <;> simp
  · rw [List.concat_eq_append,List.getLast?_concat]
    cases early <;> simp

-- The list as its links have it, from its head on.
def inOrder (c : Chain α) : List α := c.behind.reverse ++ c.items

-- A deletion takes one item out of it, and the pointer stands at the one before, if there is one.
theorem del_inOrder {c : Chain α} (inside : place < c.items.length) :
    (c.del place).inOrder = c.behind.reverse ++ c.items.take place ++ c.items.drop (place + 1) ∧
      (c.del place).items.head? = (c.behind.reverse ++ c.items.take place).getLast?.or (c.items.drop (place + 1)).head? := by
  cases place with
  | zero =>
      cases behind : c.behind with
      | nil => simp [del,behind,inOrder]
      | cons last more => simp [del,behind,inOrder]
  | succ place =>
      have kept : c.items.drop place = c.items[place] :: c.items.drop (place + 1) := by rw [List.getElem_cons_drop]
      have taken : c.items.take (place + 1) = c.items.take place ++ [c.items[place]] := List.take_succ_eq_append_getElem (by omega)
      rw [taken]
      simp only [del,kept,inOrder]
      constructor
      · simp only [List.reverse_append,List.reverse_reverse,List.append_assoc,List.singleton_append,List.tail_drop]
      · simp only [← List.append_assoc,List.getLast?_concat,List.head?_cons,Option.some_or]

theorem del_inOrder_sublist {c : Chain α} (inside : place < c.items.length) : (c.del place).inOrder.Sublist c.inOrder := by
  have whole : c.items = c.items.take place ++ c.items[place] :: c.items.drop (place + 1) := by
    rw [List.getElem_cons_drop,List.take_append_drop]
  rw [(del_inOrder inside).1,inOrder,List.append_assoc]
  nth_rewrite 3 [whole]
  exact (List.Sublist.refl _).append ((List.Sublist.refl _).append (List.sublist_cons_self _ _))

def map (f : α → β) (c : Chain α) : Chain β := ⟨c.behind.map f,c.items.map f⟩

theorem del_map (f : α → β) (c : Chain α) (place : Nat) : (c.map f).del place = (c.del place).map f := by
  cases place with
  | zero =>
      cases behind : c.behind <;> simp [del,map,behind]
  | succ place =>
      cases after : c.items.drop place <;> simp [del,map,← List.map_drop,← List.map_take,after]

-- Every item of a chain, also those behind the pointer.
def whole (c : Chain α) : List α := c.behind ++ c.items

theorem mem_add {c : Chain α} (member : x ∈ (c.add y).whole) : x ∈ c.whole ∨ x = y := by
  simp only [whole,List.mem_append,add_items,List.mem_singleton] at member ⊢
  rcases member with behind | old | new
  · refine .inl (.inl ?_)
    cases items : c.items with
    | nil => simp [add,items] at behind
    | cons first rest => simpa [add,items] using behind
  · exact .inl (.inr old)
  · exact .inr new

theorem mem_del {c : Chain α} (place : Nat) (member : x ∈ (c.del place).whole) : x ∈ c.whole := by
  cases place with
  | zero =>
      cases behind : c.behind with
      | nil =>
          simp only [del,behind,whole,List.nil_append] at member ⊢
          exact List.mem_of_mem_tail member
      | cons last rest =>
          simp only [del,behind,whole,List.mem_append,List.mem_cons] at member ⊢
          rcases member with old | rfl | later
          · exact .inl (.inr old)
          · exact .inl (.inl rfl)
          · exact .inr (List.mem_of_mem_tail later)
  | succ place =>
      cases after : c.items.drop place with
      | nil => simpa [del,after] using member
      | cons kept rest =>
          simp only [del,after,whole,List.mem_append,List.mem_reverse,List.mem_cons] at member ⊢
          have later : ∀ y ∈ kept :: rest, y ∈ c.items := fun y inside => List.mem_of_mem_drop (after ▸ inside)
          rcases member with (early | old) | rfl | tail
          · exact .inr (List.mem_of_mem_take early)
          · exact .inl old
          · exact .inr (later _ (by simp))
          · exact .inr (later _ (by simp [List.mem_of_mem_tail tail]))

theorem mem_modify {c : Chain α} {f : α → α} (place : Nat) (member : x ∈ (c.modify place f).whole) :
    x ∈ c.whole ∨ ∃ y ∈ c.whole, x = f y := by
  simp only [whole,modify,List.mem_append] at member ⊢
  rcases member with behind | changed
  · exact .inl (.inl behind)
  · obtain ⟨i,here⟩ := List.mem_iff_getElem?.mp changed
    rw [List.getElem?_modify] at here
    obtain ⟨y,inside,rfl⟩ := Option.map_eq_some_iff.mp here
    have old := List.mem_of_getElem? inside
    split
    · exact .inr ⟨y,.inr old,rfl⟩
    · exact .inl (.inr old)

end Chain
