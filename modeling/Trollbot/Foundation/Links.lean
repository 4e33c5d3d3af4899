import Mathlib.Data.List.Nodup
import Mathlib.Data.List.Range
import Mathlib.Data.List.Perm.Subperm

-- Doubly linked records on a heap. A freed record leaves its place empty and the place is never
-- given out again, so a pointer that outlives its record stays recognisable.
namespace Links

structure Node (α : Type) where
  prev : Option Nat
  next : Option Nat
  item : α

abbrev Heap (α : Type) := List (Option (Node α))

section
variable {α : Type}

-- Each of these has no result when it touches a freed record.
def read (h : Heap α) (a : Nat) : Option (Node α) := h[a]?.join

def write (h : Heap α) (a : Nat) (f : Node α → Node α) : Option (Heap α) :=
  (read h a).map (fun node => h.set a (some (f node)))

def free (h : Heap α) (a : Nat) : Option (Heap α) := (read h a).map (fun _ => h.set a none)

-- The new record is at the end of the heap.
def alloc (h : Heap α) (x : α) : Heap α := h ++ [some ⟨none,none,x⟩]

def setItem (h : Heap α) (a : Nat) (f : α → α) : Option (Heap α) :=
  write h a (fun node => { node with item := f node.item })

-- The loops over links have no result either when the links run in a circle.
def search (h : Heap α) (wanted : Nat) : Nat → Option Nat → Option Bool
  | 0,_ => none
  | _+1,none => some false
  | fuel+1,some a => if a = wanted then some true else do
    let node ← read h a
    search h wanted fuel node.next

def forward (h : Heap α) : Nat → Option Nat → Option (List Nat)
  | 0,_ => none
  | _+1,none => some []
  | fuel+1,some a => do
    let node ← read h a
    let rest ← forward h fuel node.next
    some (a :: rest)

def rewind (h : Heap α) : Nat → Nat → Option Nat
  | 0,_ => none
  | fuel+1,a => do
    let node ← read h a
    match node.prev with
    | none => some a
    | some p => rewind h fuel p

-- Through a null pointer nothing is set.
def setNext (h : Heap α) : Option Nat → Option Nat → Option (Heap α)
  | none,_ => some h
  | some a,next => write h a (fun node => { node with next := next })

def setPrev (h : Heap α) : Option Nat → Option Nat → Option (Heap α)
  | none,_ => some h
  | some a,prev => write h a (fun node => { node with prev := prev })

def unlink (h : Heap α) (a : Nat) : Option (Heap α) := do
  let node ← read h a
  let h ← setNext h node.prev node.next
  setPrev h node.next node.prev

def append (h : Heap α) (last a : Nat) : Option (Heap α) := do
  let h ← setNext h (some last) (some a)
  setPrev h (some a) (some last)

-- The records of a list in order, between the links that enter and leave them.
def Seg (h : Heap α) : Option Nat → List Nat → Option Nat → Prop
  | _,[],_ => True
  | before,a :: rest,after =>
    ∃ node, read h a = some node ∧ node.prev = before ∧ node.next = rest.head?.or after ∧ Seg h (some a) rest after

-- One list holds every record of the heap.
def Whole (h : Heap α) (l : List Nat) : Prop :=
  Seg h none l none ∧ l.Nodup ∧ ∀ a, (read h a).isSome → a ∈ l

theorem read_inside {h : Heap α} (here : read h a = some node) : a < h.length := by
  by_contra outside
  rw [read,List.getElem?_eq_none (by omega)] at here
  cases here

theorem read_write {h : Heap α} (wrote : write h a f = some h') :
    read h' b = if b = a then (read h a).map f else read h b := by
  obtain ⟨node,here,rfl⟩ := Option.map_eq_some_iff.mp wrote
  have inside := read_inside here
  by_cases same : b = a
  · subst same
    simp [read,inside] at here ⊢
    simp [here]
  · simp [read,same,List.getElem?_set_ne (Ne.symm same)]

theorem read_free {h : Heap α} (freed : free h a = some h') : read h' b = if b = a then none else read h b := by
  obtain ⟨node,here,rfl⟩ := Option.map_eq_some_iff.mp freed
  have inside := read_inside here
  by_cases same : b = a
  · subst same
    simp [read,inside]
  · simp [read,same,List.getElem?_set_ne (Ne.symm same)]

theorem read_alloc (h : Heap α) (x : α) :
    read (alloc h x) b = if b = h.length then some ⟨none,none,x⟩ else read h b := by
  by_cases new : b = h.length
  · subst new
    simp [read,alloc]
  · rw [if_neg new]
    rcases Nat.lt_or_gt_of_ne new with old | beyond
    · simp [read,alloc,List.getElem?_append_left old]
    · rw [read,read,alloc,List.getElem?_eq_none (by simp; omega),List.getElem?_eq_none (by omega)]

theorem write_runs {h : Heap α} (here : (read h a).isSome) (f : Node α → Node α) : ∃ h', write h a f = some h' := by
  obtain ⟨node,here⟩ := Option.isSome_iff_exists.mp here
  exact ⟨h.set a (some (f node)),by simp [write,here]⟩

theorem free_runs {h : Heap α} (here : (read h a).isSome) : ∃ h', free h a = some h' := by
  obtain ⟨node,here⟩ := Option.isSome_iff_exists.mp here
  exact ⟨h.set a none,by simp [free,here]⟩

theorem seg_append {h : Heap α} {before after : Option Nat} (one two : List Nat) :
    Seg h before (one ++ two) after ↔
      Seg h before one (two.head?.or after) ∧ Seg h (one.getLast?.or before) two after := by
  induction one generalizing before with
  | nil => simp [Seg]
  | cons a rest ih =>
      have entry : (a :: rest).getLast?.or before = rest.getLast?.or (some a) := by
        cases rest with
        | nil => rfl
        | cons b more => simp [List.getLast?_cons]
      have exit : (rest ++ two).head?.or after = rest.head?.or (two.head?.or after) := by
        cases rest <;> simp
      simp only [List.cons_append,Seg,ih,entry,exit]
      constructor
      · rintro ⟨node,here,prev,next,first,second⟩
        exact ⟨⟨node,here,prev,next,first⟩,second⟩
      · rintro ⟨⟨node,here,prev,next,first⟩,second⟩
        exact ⟨node,here,prev,next,first,second⟩

theorem seg_frame {h h' : Heap α} (same : ∀ a ∈ l, read h' a = read h a) (seg : Seg h before l after) :
    Seg h' before l after := by
  induction l generalizing before with
  | nil => trivial
  | cons a rest ih =>
      obtain ⟨node,here,prev,next,more⟩ := seg
      exact ⟨node,by rw [same a (by simp),here],prev,next,ih (fun b member => same b (by simp [member])) more⟩

theorem seg_member {h : Heap α} (seg : Seg h before l after) (member : a ∈ l) : (read h a).isSome := by
  induction l generalizing before with
  | nil => cases member
  | cons b rest ih =>
      obtain ⟨node,here,_,_,more⟩ := seg
      rcases List.mem_cons.mp member with rfl | later
      · simp [here]
      · exact ih more later

-- A link of a record leads to a neighbour.
theorem seg_neighbour {h : Heap α} (seg : Seg h none l none) (member : a ∈ l) (here : read h a = some node)
    (link : node.prev = some b ∨ node.next = some b) : b ∈ l := by
  obtain ⟨pre,post,rfl⟩ := List.append_of_mem member
  obtain ⟨-,node',same,prev,next,-⟩ := (seg_append pre (a :: post)).mp seg
  rw [here,Option.some.injEq] at same
  subst same
  rcases link with back | on
  · rw [prev,Option.or_none] at back
    exact List.mem_append_left _ (List.mem_of_getLast? back)
  · rw [next,Option.or_none] at on
    exact List.mem_append_right _ (List.mem_cons_of_mem _ (List.mem_of_head? on))

theorem seg_length {h : Heap α} (seg : Seg h before l after) (nodup : l.Nodup) : l.length ≤ h.length := by
  have inside : l ⊆ List.range h.length := by
    intro a member
    obtain ⟨node,here⟩ := Option.isSome_iff_exists.mp (seg_member seg member)
    exact List.mem_range.mpr (read_inside here)
  simpa using (nodup.subperm inside).length_le

theorem whole_length {h : Heap α} (whole : Whole h l) : l.length ≤ h.length := seg_length whole.1 whole.2.1

theorem search_finds {h : Heap α} (fuel : Nat) (seg : Seg h before (pre ++ a :: post) after) (enough : pre.length < fuel) :
    search h a fuel (pre ++ a :: post).head? = some true := by
  induction pre generalizing before fuel with
  | nil =>
      cases fuel with
      | zero => simp at enough
      | succ fuel => simp [search]
  | cons b rest ih =>
      cases fuel with
      | zero => simp at enough
      | succ fuel =>
          obtain ⟨node,here,_,next,more⟩ := seg
          simp only [List.cons_append,List.head?_cons,search]
          by_cases same : b = a
          · simp [same]
          · have reached := ih fuel more (by simpa using enough)
            have link : node.next = (rest ++ a :: post).head? := by
              rw [next]
              cases rest <;> simp
            simp only [if_neg same,here,Option.bind_eq_bind,Option.bind_some,link]
            exact reached

theorem search_misses {h : Heap α} (fuel : Nat) (seg : Seg h before l none) (apart : a ∉ l) (enough : l.length < fuel) :
    search h a fuel l.head? = some false := by
  induction l generalizing before fuel with
  | nil =>
      cases fuel with
      | zero => simp at enough
      | succ fuel => rfl
  | cons b rest ih =>
      cases fuel with
      | zero => simp at enough
      | succ fuel =>
          obtain ⟨node,here,_,next,more⟩ := seg
          obtain ⟨other,later⟩ := List.ne_and_not_mem_of_not_mem_cons apart
          rw [Option.or_none] at next
          simp only [List.head?_cons,search,if_neg (Ne.symm other),here,Option.bind_eq_bind,Option.bind_some,next]
          exact ih fuel more later (by simpa using enough)

theorem forward_walks {h : Heap α} (fuel : Nat) (seg : Seg h before l none) (enough : l.length < fuel) :
    forward h fuel l.head? = some l := by
  induction l generalizing before fuel with
  | nil =>
      cases fuel with
      | zero => simp at enough
      | succ fuel => rfl
  | cons a rest ih =>
      cases fuel with
      | zero => simp at enough
      | succ fuel =>
          obtain ⟨node,here,_,next,more⟩ := seg
          rw [Option.or_none] at next
          simp only [List.head?_cons,forward,here,next,Option.bind_eq_bind,Option.bind_some,
            ih fuel more (by simpa using enough)]

theorem rewind_walks {h : Heap α} (fuel : Nat) (seg : Seg h none (pre ++ [a]) after) (enough : pre.length < fuel) :
    rewind h fuel a = (pre ++ [a]).head? := by
  induction pre using List.reverseRecOn generalizing a after fuel with
  | nil =>
      cases fuel with
      | zero => simp at enough
      | succ fuel =>
          obtain ⟨node,here,prev,-,-⟩ := seg
          simp [rewind,here,prev]
  | append_singleton rest b ih =>
      cases fuel with
      | zero => simp at enough
      | succ fuel =>
          obtain ⟨earlier,node,here,prev,-,-⟩ := (seg_append (rest ++ [b]) [a]).mp seg
          have link : node.prev = some b := by simpa using prev
          have reached := ih fuel earlier (by simpa using enough)
          simp only [rewind,here,link,Option.bind_eq_bind,Option.bind_some,reached]
          cases rest <;> simp

-- From any record the prev links lead back to the first of the list.
theorem rewind_first {h : Heap α} (whole : Whole h l) (member : a ∈ l) (enough : l.length < fuel) :
    rewind h fuel a = l.head? := by
  obtain ⟨front,back,rfl⟩ := List.append_of_mem member
  have seg := whole.1
  rw [List.append_cons] at seg
  have walked := rewind_walks fuel ((seg_append (front ++ [a]) back).mp seg).1 (by simp at enough; omega)
  rw [walked]
  cases front <;> simp

-- A link that leaves or enters a segment is changed at its end.
theorem seg_relink_last {h h' : Heap α} (seg : Seg h before (pre ++ [z]) after) (apart : z ∉ pre)
    (wrote : write h z (fun node => { node with next := onward }) = some h') : Seg h' before (pre ++ [z]) onward := by
  obtain ⟨earlier,node,here,prev,-,-⟩ := (seg_append pre [z]).mp seg
  refine (seg_append pre [z]).mpr ⟨?_,{ node with next := onward },?_,prev,rfl,trivial⟩
  · refine seg_frame ?_ earlier
    intro a member
    rw [read_write wrote,if_neg (ne_of_mem_of_not_mem member apart)]
  · rw [read_write wrote,if_pos rfl,here]
    rfl

theorem seg_relink_first {h h' : Heap α} (seg : Seg h before (q :: rest) after) (apart : q ∉ rest)
    (wrote : write h q (fun node => { node with prev := back }) = some h') : Seg h' back (q :: rest) after := by
  obtain ⟨node,here,-,next,more⟩ := seg
  refine ⟨{ node with prev := back },?_,rfl,next,?_⟩
  · rw [read_write wrote,if_pos rfl,here]
    rfl
  · refine seg_frame ?_ more
    intro a member
    rw [read_write wrote,if_neg (ne_of_mem_of_not_mem member apart)]

theorem seg_write_outside {h h' : Heap α} (seg : Seg h before l after) (apart : a ∉ l)
    (wrote : write h a f = some h') : Seg h' before l after := by
  refine seg_frame ?_ seg
  intro b member
  rw [read_write wrote,if_neg (ne_of_mem_of_not_mem member apart)]

theorem live_write {h h' : Heap α} (wrote : write h a f = some h') : (read h' b).isSome = (read h b).isSome := by
  rw [read_write wrote]
  split
  · rename_i same
    rw [same,Option.isSome_map]
  · rfl

theorem item_write {h h' : Heap α} (wrote : write h a f = some h') (keeps : ∀ node : Node α, (f node).item = node.item) (b : Nat) :
    (read h' b).map (·.item) = (read h b).map (·.item) := by
  rw [read_write wrote]
  split
  · rename_i same
    subst same
    cases read h b <;> simp [keeps]
  · rfl

theorem setItem_keeps {h h' : Heap α} (seg : Seg h before l after) (wrote : setItem h a f = some h') : Seg h' before l after := by
  induction l generalizing before with
  | nil => trivial
  | cons b rest ih =>
      obtain ⟨node,here,prev,next,more⟩ := seg
      by_cases same : b = a
      · subst same
        refine ⟨{ node with item := f node.item },?_,prev,next,ih more⟩
        rw [read_write wrote,if_pos rfl,here]
        rfl
      · refine ⟨node,?_,prev,next,ih more⟩
        rw [read_write wrote,if_neg same,here]

theorem whole_setItem {h h' : Heap α} (whole : Whole h l) (wrote : setItem h a f = some h') : Whole h' l := by
  obtain ⟨seg,nodup,all⟩ := whole
  refine ⟨setItem_keeps seg wrote,nodup,?_⟩
  intro b here
  rw [live_write wrote] at here
  exact all b here

theorem whole_setAll {h : Heap α} {row : List Nat} (f : α → α) (whole : Whole h l) (inside : ∀ a ∈ row, a ∈ l) :
    ∃ h', row.foldlM (fun h a => setItem h a f) h = some h' ∧ Whole h' l := by
  induction row generalizing h with
  | nil => exact ⟨h,rfl,whole⟩
  | cons a rest ih =>
      obtain ⟨first,wrote⟩ := write_runs (seg_member whole.1 (inside a (by simp))) (fun node => { node with item := f node.item })
      have set : setItem h a f = some first := wrote
      obtain ⟨h',more,kept⟩ := ih (whole_setItem whole set) (fun b member => inside b (by simp [member]))
      exact ⟨h',by simp [set,more],kept⟩

theorem whole_alloc {h : Heap α} (whole : Whole h []) (x : α) : Whole (alloc h x) [h.length] := by
  obtain ⟨-,-,all⟩ := whole
  refine ⟨⟨⟨none,none,x⟩,by simp [read_alloc],rfl,rfl,trivial⟩,by simp,?_⟩
  intro b here
  rw [read_alloc] at here
  split at here
  · simp_all
  · exact absurd (all b here) (by simp)

theorem whole_append {h : Heap α} (whole : Whole h (pre ++ [z])) (x : α) :
    ∃ h', append (alloc h x) z h.length = some h' ∧ Whole h' (pre ++ [z] ++ [h.length]) := by
  obtain ⟨seg,nodup,all⟩ := whole
  have inside : ∀ a ∈ pre ++ [z], a ≠ h.length := by
    intro a member
    obtain ⟨node,here⟩ := Option.isSome_iff_exists.mp (seg_member seg member)
    have := read_inside here
    omega
  have grown : Seg (alloc h x) none (pre ++ [z]) none := by
    refine seg_frame ?_ seg
    intro a member
    rw [read_alloc,if_neg (inside a member)]
  have apart : z ∉ pre := fun member => (List.nodup_append.mp nodup).2.2 z member z (by simp) rfl
  obtain ⟨linked,wrote⟩ := write_runs (seg_member grown (a := z) (by simp)) (fun node => { node with next := some h.length })
  have fresh : read linked h.length = some ⟨none,none,x⟩ := by
    rw [read_write wrote,if_neg (Ne.symm (inside z (by simp))),read_alloc,if_pos rfl]
  obtain ⟨h',back⟩ := write_runs (h := linked) (a := h.length) (by simp [fresh]) (fun node => { node with prev := some z })
  have unused : h.length ∉ pre ++ [z] := fun member => inside _ member rfl
  refine ⟨h',by simp [append,setNext,setPrev,wrote,back],?_,?_,?_⟩
  · refine (seg_append (pre ++ [z]) [h.length]).mpr ⟨?_,⟨some z,none,x⟩,?_,by simp,rfl,trivial⟩
    · exact seg_write_outside (seg_relink_last grown apart wrote) unused back
    · rw [read_write back,if_pos rfl,fresh]
      rfl
  · exact List.nodup_append.mpr ⟨nodup,by simp,by simpa using inside⟩
  · intro b here
    rw [live_write back,live_write wrote,read_alloc] at here
    split at here
    · rename_i new
      simp [new]
    · have old := all b here
      simp only [List.mem_append,List.mem_singleton] at old
      rcases old with earlier | last
      · simp [earlier]
      · simp [last]

-- Only the last record of the list has no next.
theorem whole_ends {h : Heap α} (whole : Whole h (pre ++ [z])) (here : read h a = some node) : node.next = none ↔ a = z := by
  obtain ⟨seg,nodup,all⟩ := whole
  obtain ⟨front,back,split⟩ := List.append_of_mem (all a (by simp [here]))
  rw [split] at seg
  obtain ⟨-,node',same,-,next,-⟩ := (seg_append front (a :: back)).mp seg
  rw [here,Option.some.injEq] at same
  subst same
  rw [next,Option.or_none,List.head?_eq_none_iff]
  rcases List.eq_nil_or_concat back with rfl | ⟨more,y,rfl⟩
  · simpa using (List.append_inj' split rfl).2.symm
  · rw [List.concat_eq_append] at split ⊢
    have last : z = y := by simpa using (List.append_inj' (split.trans (List.append_assoc front (a :: more) [y]).symm) rfl).2
    rw [split] at nodup
    have apart : a ≠ y := fun same => (List.nodup_cons.mp (List.nodup_append.mp nodup).2.1).1 (by simp [same])
    simp [last,apart]

theorem setNext_items {h : Heap α} (wrote : setNext h a next = some h') (b : Nat) : (read h' b).map (·.item) = (read h b).map (·.item) := by
  cases a with
  | none =>
      cases wrote
      rfl
  | some a => exact item_write wrote (fun _ => rfl) b

theorem setPrev_items {h : Heap α} (wrote : setPrev h a prev = some h') (b : Nat) : (read h' b).map (·.item) = (read h b).map (·.item) := by
  cases a with
  | none =>
      cases wrote
      rfl
  | some a => exact item_write wrote (fun _ => rfl) b

theorem append_items {h : Heap α} (linked : append h z a = some h') (b : Nat) : (read h' b).map (·.item) = (read h b).map (·.item) := by
  obtain ⟨past,first,second⟩ := Option.bind_eq_some_iff.mp linked
  rw [setPrev_items second,setNext_items first]

theorem unlink_items {h : Heap α} (unlinked : unlink h a = some h') (b : Nat) : (read h' b).map (·.item) = (read h b).map (·.item) := by
  obtain ⟨node,-,unlinked⟩ := Option.bind_eq_some_iff.mp unlinked
  obtain ⟨past,first,second⟩ := Option.bind_eq_some_iff.mp unlinked
  rw [setPrev_items second,setNext_items first]

-- The two halves of unlinking: the record before is led past the one taken out, and the one after
-- is led back over it.
theorem relink_before {h : Heap α} (seg : Seg h none pre after) (nodup : pre.Nodup) (onward : Option Nat) :
    ∃ h', setNext h pre.getLast? onward = some h' ∧
      Seg h' none pre onward ∧ (∀ b, b ∉ pre → read h' b = read h b) ∧ ∀ b, (read h' b).map (·.item) = (read h b).map (·.item) := by
  rcases List.eq_nil_or_concat pre with rfl | ⟨rest,z,rfl⟩
  · exact ⟨h,rfl,trivial,fun _ _ => rfl,fun _ => rfl⟩
  · rw [List.concat_eq_append] at seg nodup ⊢
    have apart : z ∉ rest := fun member => (List.nodup_append.mp nodup).2.2 z member z (by simp) rfl
    obtain ⟨h',wrote⟩ := write_runs (seg_member seg (a := z) (by simp)) (fun node => { node with next := onward })
    refine ⟨h',by simpa [setNext] using wrote,seg_relink_last seg apart wrote,?_,item_write wrote (fun _ => rfl)⟩
    intro b outside
    have other : b ≠ z := fun same => outside (by simp [same])
    rw [read_write wrote,if_neg other]

theorem relink_after {h : Heap α} (seg : Seg h before post none) (nodup : post.Nodup) (back : Option Nat) :
    ∃ h', setPrev h post.head? back = some h' ∧
      Seg h' back post none ∧ (∀ b, b ∉ post → read h' b = read h b) ∧ ∀ b, (read h' b).map (·.item) = (read h b).map (·.item) := by
  cases post with
  | nil => exact ⟨h,rfl,trivial,fun _ _ => rfl,fun _ => rfl⟩
  | cons q rest =>
      obtain ⟨h',wrote⟩ := write_runs (seg_member seg (a := q) (by simp)) (fun node => { node with prev := back })
      refine ⟨h',wrote,seg_relink_first seg (List.nodup_cons.mp nodup).1 wrote,?_,item_write wrote (fun _ => rfl)⟩
      intro b outside
      have other : b ≠ q := fun same => outside (by simp [same])
      rw [read_write wrote,if_neg other]

-- Unlinking leaves the list without the record, which still has its own links, and no item changed.
theorem seg_unlink {h : Heap α} (seg : Seg h none (pre ++ a :: post) none) (nodup : (pre ++ a :: post).Nodup) :
    ∃ node bare, read h a = some node ∧ node.prev = pre.getLast? ∧ node.next = post.head? ∧ unlink h a = some bare ∧
      read bare a = some node ∧ Seg bare none (pre ++ post) none ∧
      ∀ b, (read bare b).map (·.item) = (read h b).map (·.item) := by
  obtain ⟨earlier,node,here,prev,next,later⟩ := (seg_append pre (a :: post)).mp seg
  rw [Option.or_none] at prev next
  obtain ⟨front,both,split⟩ := List.nodup_append.mp nodup
  obtain ⟨alone,rear⟩ := List.nodup_cons.mp both
  have outside : ∀ b ∈ a :: post, b ∉ pre := fun b member inside => split b inside b member rfl
  obtain ⟨past,wrote,ahead,keptPast,itemsPast⟩ := relink_before earlier front post.head?
  have follows : Seg past (some a) post none :=
    seg_frame (fun b member => keptPast b (outside b (by simp [member]))) later
  obtain ⟨bare,wroteBack,behind,keptBare,itemsBare⟩ := relink_after follows rear pre.getLast?
  refine ⟨node,bare,here,prev,next,?_,?_,(seg_append pre post).mpr ⟨?_,?_⟩,?_⟩
  · simp only [unlink,here,prev,next,Option.bind_eq_bind,Option.bind_some,wrote,wroteBack]
  · rw [keptBare a alone,keptPast a (outside a (by simp)),here]
  · refine seg_frame (fun b member => ?_) (by rwa [Option.or_none])
    exact keptBare b (fun after => outside b (by simp [after]) member)
  · rwa [Option.or_none]
  · intro b
    rw [itemsBare,itemsPast]

-- Freed as well, it is on no list.
theorem whole_remove {h : Heap α} (whole : Whole h (pre ++ a :: post)) :
    ∃ node bare h', read h a = some node ∧ node.prev = pre.getLast? ∧ node.next = post.head? ∧
      unlink h a = some bare ∧ free bare a = some h' ∧ Whole h' (pre ++ post) := by
  obtain ⟨seg,nodup,all⟩ := whole
  obtain ⟨node,bare,here,prev,next,unlinked,still,rest,items⟩ := seg_unlink seg nodup
  obtain ⟨h',freed⟩ := free_runs (h := bare) (a := a) (by simp [still])
  obtain ⟨front,both,split⟩ := List.nodup_append.mp nodup
  obtain ⟨alone,rear⟩ := List.nodup_cons.mp both
  refine ⟨node,bare,h',here,prev,next,unlinked,freed,?_,?_,?_⟩
  · refine seg_frame (fun b member => ?_) rest
    have other : b ≠ a := by
      rcases List.mem_append.mp member with before | after
      · exact split b before a (by simp)
      · exact ne_of_mem_of_not_mem after alone
    rw [read_free freed,if_neg other]
  · exact List.nodup_append.mpr ⟨front,rear,fun b inside c member => split b inside c (by simp [member])⟩
  · intro b remains
    rw [read_free freed] at remains
    split at remains
    · cases remains
    · rename_i other
      have live : (read h b).isSome := by
        have same := congrArg Option.isSome (items b)
        simp only [Option.isSome_map] at same
        rw [← same]
        exact remains
      have member := all b live
      simpa [other] using member

end

end Links
