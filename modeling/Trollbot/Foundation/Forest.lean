import Mathlib.Data.List.Basic
import Mathlib.Data.List.Range
import Mathlib.Data.List.Nodup
import Mathlib.Data.List.Perm.Subperm

-- Forests of labelled nodes, and heaps of linked records that hold them: every record has the
-- previous and next sibling, the first child and, for a first sibling, the parent.
inductive Forest (α : Type) where
  | nil
  | cons (label : α) (children rest : Forest α)
deriving DecidableEq

namespace Forest
variable {α β : Type}

def one (label : α) (children : Forest α) : Forest α := .cons label children .nil

@[simp] def append : Forest α → Forest α → Forest α
  | nil,b => b
  | cons label children rest,b => cons label children (append rest b)

@[simp] def map (f : α → β) : Forest α → Forest β
  | nil => nil
  | cons label children rest => cons (f label) (map f children) (map f rest)

-- The labels of the siblings, and of all nodes.
@[simp] def row : Forest α → List α
  | nil => []
  | cons label _ rest => label :: row rest

@[simp] def labels : Forest α → List α
  | nil => []
  | cons label children rest => label :: (labels children ++ labels rest)

def size : Forest α → Nat
  | nil => 0
  | cons _ children rest => 1 + size children + size rest

-- The siblings with their children.
def blocks : Forest α → List (α × Forest α)
  | nil => []
  | cons label children rest => (label,children) :: blocks rest

@[simp] theorem append_nil (a : Forest α) : append a nil = a := by
  induction a with
  | nil => rfl
  | cons label children rest _ ih => simp [append,ih]

@[simp] theorem append_assoc (a b c : Forest α) : append (append a b) c = append a (append b c) := by
  induction a with
  | nil => rfl
  | cons label children rest _ ih => simp [append,ih]

@[simp] theorem row_append (a b : Forest α) : row (append a b) = row a ++ row b := by
  induction a with
  | nil => rfl
  | cons label children rest _ ih => simp [append,row,ih]

@[simp] theorem labels_append (a b : Forest α) : labels (append a b) = labels a ++ labels b := by
  induction a with
  | nil => rfl
  | cons label children rest _ ih => simp [append,labels,ih]

@[simp] theorem map_append (f : α → β) (a b : Forest α) : map f (append a b) = append (map f a) (map f b) := by
  induction a with
  | nil => rfl
  | cons label children rest _ ih => simp [append,map,ih]

@[simp] theorem row_map (f : α → β) (a : Forest α) : row (map f a) = (row a).map f := by
  induction a with
  | nil => rfl
  | cons label children rest _ ih => simp [map,row,ih]

@[simp] theorem blocks_append (a b : Forest α) : blocks (append a b) = blocks a ++ blocks b := by
  induction a with
  | nil => rfl
  | cons label children rest _ ih => simp [append,blocks,ih]

@[simp] theorem map_blocks (a : Forest α) : (blocks a).map Prod.fst = row a := by
  induction a with
  | nil => rfl
  | cons label children rest _ ih => simp [blocks,row,ih]

theorem blocks_labels {a : Forest α} (member : block ∈ blocks a) (inside : x ∈ labels block.2) : x ∈ labels a := by
  induction a with
  | nil => cases member
  | cons label children rest _ ih =>
      rcases List.mem_cons.mp member with rfl | later
      · simp [labels,inside]
      · simp [labels,ih later]

@[simp] theorem labels_map (f : α → β) (a : Forest α) : labels (map f a) = (labels a).map f := by
  induction a with
  | nil => rfl
  | cons label children rest ihChildren ihRest => simp [map,labels,ihChildren,ihRest]

theorem row_first {a : Forest α} {found : α → Bool} (present : ∃ label ∈ row a, found label = true) :
    ∃ x label children y, a = append x (cons label children y) ∧ (∀ other ∈ row x, found other = false) ∧
      found label = true := by
  induction a with
  | nil =>
      obtain ⟨label,member,-⟩ := present
      cases member
  | cons label children rest _ ih =>
      by_cases here : found label = true
      · exact ⟨nil,label,children,rest,rfl,by simp [row],here⟩
      · obtain ⟨other,member,hit⟩ := present
        rcases List.mem_cons.mp member with rfl | later
        · exact absurd hit here
        · obtain ⟨x,first,below,y,rfl,misses,hit'⟩ := ih ⟨other,later,hit⟩
          refine ⟨cons label children x,first,below,y,rfl,?_,hit'⟩
          intro passed member
          rcases List.mem_cons.mp member with rfl | inside
          · simpa using here
          · exact misses passed inside

theorem labels_below {children : Forest α} (member : x ∈ labels children) : x ∈ labels (cons label children rest) := by
  simp [labels,member]

theorem labels_after {rest : Forest α} (member : x ∈ labels rest) : x ∈ labels (cons label children rest) := by
  simp [labels,member]

theorem row_labels (member : x ∈ row a) : x ∈ labels a := by
  induction a with
  | nil => cases member
  | cons label children rest _ ih =>
      rcases List.mem_cons.mp member with rfl | later
      · simp [labels]
      · simp [labels,ih later]

end Forest

namespace Linked

structure Node (α : Type) where
  label : α
  prev : Option Nat
  next : Option Nat
  parent : Option Nat
  child : Option Nat
deriving DecidableEq

-- A freed record is none; addresses are places.
abbrev Heap (α : Type) := List (Option (Node α))

section
variable {α : Type}

def cell (h : Heap α) (p : Nat) : Option (Node α) := h[p]?.bind id
def store (h : Heap α) (p : Nat) (n : Node α) : Heap α := h.set p (some n)
def alloc (h : Heap α) (n : Node α) : Heap α := h ++ [some n]

theorem cell_bound (live : cell h p = some n) : p < h.length := by
  by_contra outside
  rw [cell,List.getElem?_eq_none (by omega)] at live
  cases live

@[simp] theorem store_length (h : Heap α) (p : Nat) (n : Node α) : (store h p n).length = h.length := by simp [store]

@[simp] theorem alloc_length (h : Heap α) (n : Node α) : (alloc h n).length = h.length + 1 := by simp [alloc]

theorem cell_store (live : p < h.length) (n : Node α) : cell (store h p n) p = some n := by
  simp [cell,store,live]

theorem cell_store_other (n : Node α) (other : q ≠ p) : cell (store h p n) q = cell h q := by
  simp [cell,store,Ne.symm other]

@[simp] theorem cell_alloc (h : Heap α) (n : Node α) : cell (alloc h n) h.length = some n := by
  simp [cell,alloc]

theorem store_same (here : cell h p = some n) : store h p n = h := by
  have inside := cell_bound here
  have same : h[p] = some n := by simpa [cell,List.getElem?_eq_getElem inside] using here
  rw [store,← same,List.set_getElem_self]

theorem cell_alloc_old (n : Node α) (old : q < h.length) : cell (alloc h n) q = cell h q := by
  simp [cell,alloc,List.getElem?_append_left old]

-- Every label in the heap.
def Labels (h : Heap α) (good : α → Prop) : Prop := ∀ p n, cell h p = some n → good n.label

theorem labels_store {good : α → Prop} (labels : Labels h good) (p : Nat) (new : good n.label) : Labels (store h p n) good := by
  intro q m live
  by_cases same : q = p
  · subst same
    have inside : q < h.length := by simpa using cell_bound live
    rw [cell_store inside,Option.some.injEq] at live
    rw [← live]
    exact new
  · rw [cell_store_other n same] at live
    exact labels q m live

theorem labels_alloc {good : α → Prop} (labels : Labels h good) (new : good n.label) : Labels (alloc h n) good := by
  intro q m live
  by_cases last : q = h.length
  · subst last
    rw [cell_alloc,Option.some.injEq] at live
    rw [← live]
    exact new
  · have bound := cell_bound live
    rw [alloc_length] at bound
    rw [cell_alloc_old n (by omega)] at live
    exact labels q m live

-- A placed forest carries the address of every node.
abbrev Placed (α : Type) := Forest (Nat × α)

def head : Placed α → Option Nat
  | .nil => none
  | .cons label _ _ => some label.1

def lastOf (prev : Option Nat) : Placed α → Option Nat
  | .nil => prev
  | .cons label _ rest => lastOf (some label.1) rest

-- The parent link of the sibling after `a`: only a first sibling has one.
def owner (parent : Option Nat) : Placed α → Option Nat
  | .nil => parent
  | .cons _ _ _ => none

def addresses (a : Placed α) : List Nat := a.labels.map Prod.fst
def siblings (a : Placed α) : List Nat := a.row.map Prod.fst
def bare (a : Placed α) : Forest α := a.map Prod.snd

-- The heap holds a placed forest between a previous sibling and a next one.
def Rep (h : Heap α) (prev parent stop : Option Nat) : Placed α → Prop
  | .nil => True
  | .cons (p,label) children rest =>
    cell h p = some ⟨label,prev,(head rest).or stop,parent,head children⟩ ∧
      Rep h none (some p) none children ∧ Rep h (some p) none stop rest

def Separate (a : Placed α) : Prop := (addresses a).Nodup

@[simp] theorem head_nil : head (.nil : Placed α) = none := rfl
@[simp] theorem head_cons (label : Nat × α) (children rest : Placed α) : head (.cons label children rest) = some label.1 := rfl

theorem head_none {a : Placed α} (empty : head a = none) : a = .nil := by
  cases a with
  | nil => rfl
  | cons => cases empty

theorem head_opens {a : Placed α} (start : head a = some p) : ∃ label children rest, a = .cons (p,label) children rest := by
  cases a with
  | nil => cases start
  | cons label children rest =>
      cases start
      exact ⟨label.2,children,rest,rfl⟩

theorem head_some {a : Placed α} (some' : a ≠ .nil) : ∃ p, head a = some p := by
  cases a with
  | nil => exact absurd rfl some'
  | cons label children rest => exact ⟨label.1,rfl⟩

theorem head_member {a : Placed α} (start : head a = some p) : p ∈ siblings a := by
  obtain ⟨label,children,rest,rfl⟩ := head_opens start
  simp [siblings,Forest.row]

@[simp] theorem head_append (a b : Placed α) : head (a.append b) = (head a).or (head b) := by
  cases a <;> simp [Forest.append,head]

@[simp] theorem lastOf_append (a b : Placed α) : lastOf prev (a.append b) = lastOf (lastOf prev a) b := by
  induction a generalizing prev with
  | nil => rfl
  | cons label children rest _ ih => simp [Forest.append,lastOf,ih]

@[simp] theorem addresses_append (a b : Placed α) : addresses (a.append b) = addresses a ++ addresses b := by
  simp [addresses]

@[simp] theorem siblings_append (a b : Placed α) : siblings (a.append b) = siblings a ++ siblings b := by
  simp [siblings]

@[simp] theorem addresses_cons (p : Nat) (label : α) (children rest : Placed α) :
    addresses (.cons (p,label) children rest) = p :: (addresses children ++ addresses rest) := by
  simp [addresses,Forest.labels]

@[simp] theorem addresses_nil : addresses (.nil : Placed α) = [] := rfl

theorem siblings_address {a : Placed α} (member : p ∈ siblings a) : p ∈ addresses a := by
  obtain ⟨label,inRow,rfl⟩ := List.mem_map.mp member
  exact List.mem_map_of_mem (Forest.row_labels inRow)

theorem rep_append {h : Heap α} {a b : Placed α} : Rep h prev parent stop (a.append b) ↔
    Rep h prev parent ((head b).or stop) a ∧ Rep h (lastOf prev a) (owner parent a) stop b := by
  induction a generalizing prev parent with
  | nil => simp [Forest.append,Rep,lastOf,owner]
  | cons label children rest _ ih =>
      obtain ⟨p,label⟩ := label
      simp only [Forest.append,Rep,head_append,Option.or_assoc,ih,lastOf,owner]
      cases rest with
      | nil => simp [Rep,lastOf,and_assoc]
      | cons second more last => simp [and_assoc]

-- The forest only depends on the cells at its addresses.
theorem rep_frame {h later : Heap α} {a : Placed α} (same : ∀ p ∈ addresses a, cell later p = cell h p)
    (rep : Rep h prev parent stop a) : Rep later prev parent stop a := by
  induction a generalizing prev parent stop with
  | nil => trivial
  | cons label children rest ihChildren ihRest =>
      obtain ⟨p,label⟩ := label
      obtain ⟨here,below,after⟩ := rep
      refine ⟨(same p (by simp)).trans here,?_,?_⟩
      · exact ihChildren (fun q member => same q (by simp [member])) below
      · exact ihRest (fun q member => same q (by simp [member])) after

theorem rep_labels {h : Heap α} {a : Placed α} {good : α → Prop} (labels : Labels h good) (rep : Rep h prev parent stop a) :
    ∀ label ∈ (bare a).labels, good label := by
  induction a generalizing prev parent stop with
  | nil => simp [bare,Forest.map,Forest.labels]
  | cons label children rest ihChildren ihRest =>
      obtain ⟨p,label⟩ := label
      obtain ⟨here,below,after⟩ := rep
      intro other member
      simp only [bare,Forest.map,Forest.labels,List.mem_cons,List.mem_append] at member
      rcases member with rfl | inside | later
      · exact labels p _ here
      · exact ihChildren below other inside
      · exact ihRest after other later

-- A heap holds one forest from an address on.
theorem rep_same {h : Heap α} {a b : Placed α} (first : Rep h prev parent none a) (second : Rep h prev' parent' none b)
    (start : head b = head a) : b = a := by
  induction a generalizing prev parent prev' parent' b with
  | nil =>
      cases b with
      | nil => rfl
      | cons label children rest => cases start
  | cons label children rest ihChildren ihRest =>
      cases b with
      | nil => cases start
      | cons label' children' rest' =>
          obtain ⟨p,label⟩ := label
          obtain ⟨q,label'⟩ := label'
          obtain rfl : q = p := by simpa using start
          obtain ⟨here,below,after⟩ := first
          obtain ⟨here',below',after'⟩ := second
          rw [here] at here'
          simp only [Option.some.injEq,Node.mk.injEq,Option.or_none] at here'
          obtain ⟨rfl,-,next,-,child⟩ := here'
          rw [ihChildren below below' child.symm,ihRest after after' next.symm]

theorem rep_live {h : Heap α} {a : Placed α} (rep : Rep h prev parent stop a) (member : p ∈ addresses a) :
    p < h.length := by
  induction a generalizing prev parent stop with
  | nil => cases member
  | cons label children rest ihChildren ihRest =>
      obtain ⟨q,label⟩ := label
      obtain ⟨here,below,after⟩ := rep
      simp only [addresses_cons,List.mem_cons,List.mem_append] at member
      rcases member with rfl | inChildren | inRest
      · exact cell_bound here
      · exact ihChildren below inChildren
      · exact ihRest after inRest

theorem rep_alloc {h : Heap α} {a : Placed α} (rep : Rep h prev parent stop a) (n : Node α) :
    Rep (alloc h n) prev parent stop a :=
  rep_frame (fun _ member => cell_alloc_old n (rep_live rep member)) rep

theorem rep_store {h : Heap α} {a : Placed α} (rep : Rep h prev parent stop a) (n : Node α) (outside : p ∉ addresses a) :
    Rep (store h p n) prev parent stop a := by
  refine rep_frame ?_ rep
  intro q member
  exact cell_store_other n (fun same => outside (same ▸ member))

theorem separate_parts {children rest : Placed α} (separate : Separate (.cons (p,label) children rest)) :
    Separate children ∧ Separate rest := by
  simp only [Separate,addresses_cons,List.nodup_cons,List.nodup_append] at separate
  exact ⟨separate.2.1,separate.2.2.1⟩

theorem siblings_fit {h : Heap α} {a : Placed α} (rep : Rep h prev parent stop a) (separate : Separate a) :
    (siblings a).length ≤ h.length := by
  have rowNodup : (siblings a).Nodup := by
    induction a generalizing prev parent stop with
    | nil => simp [siblings,Forest.row]
    | cons label children rest _ ih =>
        obtain ⟨p,label⟩ := label
        have tail := ih rep.2.2 (separate_parts separate).2
        simp only [Separate,addresses_cons,List.nodup_cons,List.mem_append,not_or] at separate
        simp only [siblings,Forest.row,List.map_cons,List.nodup_cons]
        refine ⟨fun member => separate.1.2 (siblings_address member),tail⟩
  have inside : siblings a ⊆ List.range h.length := by
    intro p member
    exact List.mem_range.mpr (rep_live rep (siblings_address member))
  simpa using (List.subperm_of_subset rowNodup inside).length_le

theorem lastOf_cons (prev : Option Nat) (label : Nat × α) (children rest : Placed α) :
    ∃ q, lastOf prev (.cons label children rest) = some q ∧ q ∈ siblings (.cons label children rest) := by
  induction rest generalizing prev label children with
  | nil => exact ⟨label.1,rfl,by simp [siblings,Forest.row]⟩
  | cons second more last _ ih =>
      obtain ⟨q,final,member⟩ := ih (some label.1) second more
      exact ⟨q,final,List.mem_cons_of_mem _ member⟩

theorem last_split (a : Placed α) (some' : a ≠ .nil) :
    ∃ (x : Placed α) (q : Nat) (label : α) (children : Placed α), a = x.append (.one (q,label) children) := by
  induction a with
  | nil => exact absurd rfl some'
  | cons label children rest _ ih =>
      obtain ⟨p,label⟩ := label
      cases rest with
      | nil => exact ⟨Forest.nil,p,label,children,rfl⟩
      | cons second more final =>
          obtain ⟨x,q,last,below,same⟩ := ih (by simp)
          exact ⟨Forest.cons (p,label) children x,q,last,below,by rw [same]; rfl⟩

theorem last_cell {h : Heap α} {a : Placed α} (rep : Rep h prev parent stop a) (last : lastOf none a = some q) :
    ∃ n, cell h q = some n ∧ n.next = stop := by
  induction a generalizing prev parent with
  | nil => cases last
  | cons label children rest _ ih =>
      obtain ⟨p,label⟩ := label
      obtain ⟨here,_,after⟩ := rep
      cases rest with
      | nil =>
          cases last
          exact ⟨_,here,rfl⟩
      | cons second more final => exact ih after last

-- Loops over siblings. Back along the prev links until a record stops the loop; a missing link faults.
def walkBack (h : Heap α) (stops : Node α → Bool) : Nat → Nat → Option Nat
  | 0,_ => none
  | fuel+1,p => do
    let n ← cell h p
    if stops n then some p else do
      let q ← n.prev
      walkBack h stops fuel q

def rewind (h : Heap α) (p : Nat) : Option Nat := walkBack h (fun n => n.prev.isNone) h.length p

-- On along the next links to the first record that is looked for. The second result is the last
-- record passed before the loop ended.
def walkOn (h : Heap α) (found : α → Bool) : Nat → Option Nat → Option Nat → Option (Option Nat × Option Nat)
  | _,none,passed => some (none,passed)
  | 0,some _,_ => none
  | fuel+1,some p,passed => do
    let n ← cell h p
    if found n.label then some (some p,passed) else walkOn h found fuel n.next (some p)

-- On along the next links while there is one and the record's label lets it.
def walkEnd (h : Heap α) (goes : α → Bool) : Nat → Nat → Option Nat
  | 0,_ => none
  | fuel+1,p => do
    let n ← cell h p
    match n.next with
    | some q => if goes n.label then walkEnd h goes fuel q else some p
    | none => some p

theorem siblings_split {a : Placed α} (member : q ∈ siblings a) :
    ∃ (x : Placed α) (label : α) (children y : Placed α), a = x.append (.cons (q,label) children y) := by
  induction a with
  | nil => cases member
  | cons label children rest _ ih =>
      obtain ⟨p,label⟩ := label
      rcases List.mem_cons.mp member with rfl | later
      · exact ⟨Forest.nil,label,children,rest,rfl⟩
      · obtain ⟨x,label',children',y,rfl⟩ := ih later
        exact ⟨Forest.cons (p,label) children x,label',children',y,rfl⟩

theorem walkBack_first {h : Heap α} (rep : Rep h prev parent stop (.cons (p,label) children rest))
    (passes : ∀ n : Node α, n.prev.isSome → n.parent = none → stops n = false)
    (member : q ∈ siblings (.cons (p,label) children rest)) :
    ∃ back ≤ (siblings rest).length, ∀ fuel, walkBack h stops (fuel + back) q = walkBack h stops fuel p := by
  induction rest generalizing p label children prev parent with
  | nil =>
      obtain rfl : q = p := by simpa [siblings,Forest.row] using member
      exact ⟨0,by omega,fun fuel => rfl⟩
  | cons second more last _ ih =>
      obtain ⟨r,second⟩ := second
      rcases List.mem_cons.mp member with rfl | later
      · exact ⟨0,by omega,fun fuel => rfl⟩
      · obtain ⟨here,_,below⟩ := rep.2.2
        obtain ⟨back,short,walks⟩ := ih rep.2.2 later
        refine ⟨back+1,by simp only [siblings,Forest.row,List.map_cons,List.length_cons] at short ⊢; omega,?_⟩
        intro fuel
        have regroup : fuel + (back + 1) = (fuel + 1) + back := by omega
        have goes := passes ⟨second,some p,(head last).or stop,none,head more⟩ rfl rfl
        rw [regroup,walks (fuel + 1)]
        simp only [walkBack,here,goes,Option.bind_eq_bind,Option.bind_some,Bool.false_eq_true,if_false]

-- A loop that only a first sibling stops ends at the head.
theorem walkBack_head {h : Heap α} {a : Placed α} (rep : Rep h none parent stop a) (separate : Separate a)
    (passes : ∀ n : Node α, n.prev.isSome → n.parent = none → stops n = false)
    (halts : ∀ n : Node α, n.prev = none → n.parent = parent → stops n = true)
    (member : q ∈ siblings a) : walkBack h stops h.length q = head a := by
  have fits := siblings_fit rep separate
  cases a with
  | nil => cases member
  | cons label children rest =>
      obtain ⟨p,label⟩ := label
      obtain ⟨back,short,walks⟩ := walkBack_first rep passes member
      have room : (siblings rest).length + 1 ≤ h.length := fits
      have regroup : h.length = (h.length - back - 1 + 1) + back := by omega
      have stopsHere := halts ⟨label,none,(head rest).or stop,parent,head children⟩ rfl rfl
      rw [regroup,walks]
      simp only [walkBack,rep.1,stopsHere,head_cons,Option.bind_eq_bind,Option.bind_some,if_true]

theorem rewind_head {h : Heap α} {a : Placed α} (rep : Rep h none parent stop a) (separate : Separate a)
    (member : q ∈ siblings a) : rewind h q = head a := by
  refine walkBack_head rep separate ?_ ?_ member
  · intro n some _
    simpa using some
  · intro n none _
    simp [none]

theorem walkOn_passes {h : Heap α} {a : Placed α} (rep : Rep h prev parent stop a)
    (none' : ∀ label ∈ a.row, found label.2 = false) (fuel : Nat) (passed : Option Nat) :
    walkOn h found (fuel + (siblings a).length) ((head a).or stop) passed =
      walkOn h found fuel stop (lastOf passed a) := by
  induction a generalizing prev parent passed with
  | nil => simp [siblings,Forest.row,lastOf]
  | cons label children rest _ ih =>
      obtain ⟨p,label⟩ := label
      obtain ⟨here,_,after⟩ := rep
      have misses : found label = false := none' (p,label) (by simp [Forest.row])
      have later := ih after (fun other member => none' other (by simp [Forest.row,member])) (some p)
      have length : fuel + (siblings (.cons (p,label) children rest)).length = fuel + (siblings rest).length + 1 := rfl
      simp only [length,head_cons,Option.some_or,walkOn,here,misses,Option.bind_eq_bind,Option.bind_some,
        Bool.false_eq_true,if_false]
      exact later

theorem walkOn_none {h : Heap α} {a : Placed α} (rep : Rep h prev parent none a) (separate : Separate a)
    (none' : ∀ label ∈ a.row, found label.2 = false) (passed : Option Nat) :
    walkOn h found h.length (head a) passed = some (none,lastOf passed a) := by
  have fits := siblings_fit rep separate
  have walks := walkOn_passes rep none' (h.length - (siblings a).length) passed
  have regroup : h.length - (siblings a).length + (siblings a).length = h.length := by omega
  rw [regroup,Option.or_none] at walks
  rw [walks]
  cases h.length - (siblings a).length <;> rfl

theorem walkOn_found {h : Heap α} {x children y : Placed α}
    (rep : Rep h prev parent none (x.append (.cons (p,label) children y)))
    (separate : Separate (x.append (.cons (p,label) children y)))
    (misses : ∀ other ∈ x.row, found other.2 = false) (hit : found label = true) (passed : Option Nat) :
    walkOn h found h.length (head (x.append (.cons (p,label) children y))) passed = some (some p,lastOf passed x) := by
  have fits := siblings_fit rep separate
  have room : (siblings x).length + 1 ≤ h.length := by
    have : (siblings (.cons (p,label) children y)).length = (siblings y).length + 1 := rfl
    rw [siblings_append,List.length_append,this] at fits
    omega
  obtain ⟨front,back⟩ := rep_append.mp rep
  have walks := walkOn_passes front misses (h.length - (siblings x).length) passed
  have regroup : h.length - (siblings x).length + (siblings x).length = h.length := by omega
  have start : h.length - (siblings x).length = (h.length - (siblings x).length - 1) + 1 := by omega
  rw [regroup] at walks
  simp only [head_append,head_cons,Option.or_none] at walks ⊢
  rw [walks,start]
  simp only [walkOn,back.1,hit,Option.bind_eq_bind,Option.bind_some,if_true]

theorem walkEnd_last {h : Heap α} (rep : Rep h prev parent none (.cons (p,label) children rest))
    (goes' : ∀ other ∈ (Forest.cons (p,label) children rest).row, goes other.2 = true)
    (enough : (siblings rest).length < fuel) : walkEnd h goes fuel p = lastOf none (.cons (p,label) children rest) := by
  induction rest generalizing p label children prev parent fuel with
  | nil =>
      cases fuel with
      | zero => omega
      | succ fuel => simp [walkEnd,rep.1,lastOf]
  | cons second more last _ ih =>
      obtain ⟨r,second⟩ := second
      cases fuel with
      | zero => omega
      | succ fuel =>
          have first : goes label = true := goes' (p,label) (by simp [Forest.row])
          have room : (siblings last).length < fuel := by
            have length : (siblings (.cons (r,second) more last)).length = (siblings last).length + 1 := rfl
            omega
          have later := ih rep.2.2 (fun other member => goes' other (List.mem_cons_of_mem _ member)) room
          simp only [walkEnd,rep.1,head_cons,Option.some_or,first,Option.bind_eq_bind,Option.bind_some,if_true]
          exact later

theorem walkEnd_level {h : Heap α} {a : Placed α} (rep : Rep h prev parent none a) (separate : Separate a)
    (member : q ∈ siblings a) (goes' : ∀ other ∈ a.row, goes other.2 = true) :
    walkEnd h goes h.length q = lastOf none a := by
  have fits := siblings_fit rep separate
  obtain ⟨x,label,children,y,rfl⟩ := siblings_split member
  have enough : (siblings y).length < h.length := by
    have length : (siblings (.cons (q,label) children y)).length = (siblings y).length + 1 := rfl
    rw [siblings_append,List.length_append,length] at fits
    omega
  rw [walkEnd_last (rep_append.mp rep).2 (fun other inside => goes' other (by rw [Forest.row_append]; exact List.mem_append_right _ inside)) enough,lastOf_append]
  rfl

-- The cells outside `changed` stay, and nothing is taken away.
structure Keeps (changed : List Nat) (h later : Heap α) : Prop where
  grows : h.length ≤ later.length
  same : ∀ p < h.length, p ∉ changed → cell later p = cell h p

-- A placed forest took over the place of another one, with new nodes where there were no cells.
structure Replaces (h : Heap α) (old new : Placed α) : Prop where
  separate : Separate new
  fresh : ∀ p ∈ addresses new, p ∈ addresses old ∨ h.length ≤ p
  head : head new = head old

theorem Keeps.refl (changed : List Nat) (h : Heap α) : Keeps changed h h := ⟨Nat.le_refl _,fun _ _ _ => rfl⟩

theorem Keeps.trans {h middle last : Heap α} (first : Keeps changed h middle) (second : Keeps others middle last)
    (within : ∀ p ∈ others, p ∈ changed ∨ h.length ≤ p) : Keeps changed h last := by
  refine ⟨Nat.le_trans first.grows second.grows,?_⟩
  intro p live outside
  have kept : p ∉ others := by
    intro member
    rcases within p member with bad | new
    · exact outside bad
    · omega
  exact (second.same p (Nat.lt_of_lt_of_le live first.grows) kept).trans (first.same p live outside)

theorem Keeps.wider {h later : Heap α} (keeps : Keeps changed h later) (within : ∀ p ∈ changed, p ∈ others) :
    Keeps others h later :=
  ⟨keeps.grows,fun p live outside => keeps.same p live (fun member => outside (within p member))⟩

theorem keeps_alloc (changed : List Nat) (h : Heap α) (n : Node α) : Keeps changed h (alloc h n) :=
  ⟨by simp,fun _ live _ => cell_alloc_old n live⟩

theorem keeps_store (h : Heap α) (p : Nat) (n : Node α) : Keeps [p] h (store h p n) :=
  ⟨by simp,fun _ _ outside => cell_store_other n (by simpa using outside)⟩

theorem Replaces.refl {a : Placed α} (h : Heap α) (separate : Separate a) : Replaces h a a :=
  ⟨separate,fun _ member => .inl member,rfl⟩

theorem Replaces.trans {h later : Heap α} {a b c : Placed α} (first : Replaces h a b) (second : Replaces later b c)
    (grows : h.length ≤ later.length) : Replaces h a c := by
  refine ⟨second.separate,?_,second.head.trans first.head⟩
  intro p member
  rcases second.fresh p member with inB | new
  · exact first.fresh p inB
  · exact .inr (Nat.le_trans grows new)

-- The children of one node of a level.
section children
variable {h : Heap α} {x children y : Placed α}

theorem separate_node (separate : Separate (x.append (.cons (p,label) children y))) :
    Separate children ∧ p ∉ addresses children ∧ p ∉ addresses x ∧ p ∉ addresses y ∧
      (∀ q ∈ addresses children, q ∉ addresses x ∧ q ∉ addresses y) := by
  simp only [Separate,addresses_append,addresses_cons,List.nodup_append,List.nodup_cons,List.mem_cons,
    List.mem_append,not_or] at separate ⊢
  obtain ⟨_,⟨⟨notChild,notY⟩,child,_,apart⟩,front⟩ := separate
  refine ⟨child,notChild,fun member => front p member p (.inl rfl) rfl,notY,?_⟩
  intro q member
  exact ⟨fun inX => front q inX q (.inr (.inl member)) rfl,fun inY => apart q member q inY rfl⟩

theorem rep_node (rep : Rep h prev parent stop (x.append (.cons (p,label) children y))) :
    cell h p = some ⟨label,lastOf prev x,(head y).or stop,owner parent x,head children⟩ ∧
      Rep h none (some p) none children :=
  ⟨(rep_append.mp rep).2.1,(rep_append.mp rep).2.2.1⟩

theorem rep_children {later : Heap α} {new : Placed α}
    (rep : Rep h prev parent stop (x.append (.cons (p,label) children y)))
    (separate : Separate (x.append (.cons (p,label) children y)))
    (keeps : Keeps (addresses children) h later) (below : Rep later none (some p) none new)
    (replaces : Replaces h children new) : Rep later prev parent stop (x.append (.cons (p,label) new y)) := by
  obtain ⟨front,here,_,back⟩ := rep_append.mp rep
  obtain ⟨_,notChild,_,_,apart⟩ := separate_node separate
  have stays : ∀ q, q < h.length → q ∉ addresses children → cell later q = cell h q := keeps.same
  refine rep_append.mpr ⟨?_,?_,below,?_⟩
  · refine rep_frame ?_ front
    intro q member
    exact stays q (rep_live front member) (fun bad => (apart q bad).1 member)
  · rw [replaces.head,stays p (cell_bound here) notChild]
    exact here
  · refine rep_frame ?_ back
    intro q member
    exact stays q (rep_live back member) (fun bad => (apart q bad).2 member)

theorem replaces_children {new : Placed α} (rep : Rep h prev parent stop (x.append (.cons (p,label) children y)))
    (separate : Separate (x.append (.cons (p,label) children y))) (separateNew : Separate new)
    (fresh : ∀ q ∈ addresses new, q ∈ addresses children ∨ h.length ≤ q) (label' : α) : Replaces h (x.append (.cons (p,label) children y)) (x.append (.cons (p,label') new y)) := by
  have live : ∀ q ∈ addresses (x.append (.cons (p,label) children y)), q < h.length := fun q => rep_live rep
  refine ⟨?_,?_,by simp⟩
  · have outside : ∀ q ∈ addresses new, q ∉ addresses x ∧ q ∉ addresses y ∧ q ≠ p := by
      intro q member
      obtain ⟨_,notChild,_,_,apart⟩ := separate_node separate
      rcases fresh q member with old | new
      · exact ⟨(apart q old).1,(apart q old).2,fun same => notChild (same ▸ old)⟩
      · refine ⟨fun bad => ?_,fun bad => ?_,fun same => ?_⟩
        · have := live q (by simp [bad])
          omega
        · have := live q (by simp [bad])
          omega
        · have := live p (by simp)
          omega
    simp only [Separate,addresses_append,addresses_cons,List.nodup_append,List.nodup_cons,List.mem_cons,
      List.mem_append,not_or] at separate ⊢
    obtain ⟨sepX,⟨⟨_,notY⟩,_,sepY,_⟩,front⟩ := separate
    refine ⟨sepX,⟨⟨fun bad => (outside p bad).2.2 rfl,notY⟩,separateNew,sepY,?_⟩,?_⟩
    · rintro q member r inY rfl
      exact (outside q member).2.1 inY
    · rintro q inX r member rfl
      rcases member with rfl | inNew | inY
      · exact front q inX q (.inl rfl) rfl
      · exact (outside q inNew).1 inX
      · exact front q inX q (.inr (.inr inY)) rfl
  · intro q member
    simp only [addresses_append,addresses_cons,List.mem_append,List.mem_cons] at member ⊢
    rcases member with inX | rfl | inNew | inY
    · exact .inl (.inl inX)
    · exact .inl (.inr (.inl rfl))
    · rcases fresh q inNew with old | new
      · exact .inl (.inr (.inr (.inl old)))
      · exact .inr new
    · exact .inl (.inr (.inr (.inr inY)))

end children

-- The three changes a program makes to a level: another label, a first child, a new last sibling.
theorem rep_relabel {h : Heap α} {x children y : Placed α}
    (rep : Rep h prev parent none (x.append (.cons (p,label) children y)))
    (separate : Separate (x.append (.cons (p,label) children y))) (live : cell h p = some n) (label' : α) :
    Rep (store h p { n with label := label' }) prev parent none (x.append (.cons (p,label') children y)) := by
  obtain ⟨front,here,below,back⟩ := rep_append.mp rep
  obtain ⟨_,notChild,notX,notY,_⟩ := separate_node separate
  obtain rfl := Option.some.inj (live.symm.trans here)
  refine rep_append.mpr ⟨rep_store front _ notX,?_,rep_store below _ notChild,rep_store back _ notY⟩
  exact cell_store (cell_bound here) _

theorem rep_addChild {h : Heap α} {x children y : Placed α} (rep : Rep h prev parent none (x.append (.cons (p,label) children y)))
    (separate : Separate (x.append (.cons (p,label) children y))) (live : cell h p = some n) (label' : α) :
    Rep (store (alloc h ⟨label',none,none,some p,none⟩) p { n with child := some h.length }) prev parent none
      (x.append (.cons (p,label) (.one (h.length,label') .nil) y)) := by
  obtain ⟨front,here,_,back⟩ := rep_append.mp rep
  obtain ⟨_,_,notX,notY,_⟩ := separate_node separate
  obtain rfl := Option.some.inj (live.symm.trans here)
  have old := cell_bound here
  refine rep_append.mpr ⟨rep_store (rep_alloc front _) _ notX,?_,⟨?_,trivial,trivial⟩,rep_store (rep_alloc back _) _ notY⟩
  · rw [cell_store (by simp; omega)]
    rfl
  · rw [cell_store_other _ (by omega),cell_alloc]
    rfl

theorem rep_addSibling {h : Heap α} {x children : Placed α} (rep : Rep h prev parent none (x.append (.one (p,label) children)))
    (separate : Separate (x.append (.one (p,label) children))) (live : cell h p = some n) (label' : α) :
    Rep (store (alloc h ⟨label',some p,none,none,none⟩) p { n with next := some h.length }) prev parent none
      (x.append (.cons (p,label) children (.one (h.length,label') .nil))) := by
  obtain ⟨front,here,below,_⟩ := rep_append.mp rep
  obtain ⟨_,notChild,notX,_,_⟩ := separate_node separate
  obtain rfl := Option.some.inj (live.symm.trans here)
  have old := cell_bound here
  refine rep_append.mpr ⟨?_,?_,?_,?_,trivial,trivial⟩
  · exact rep_store (rep_alloc front _) _ notX
  · rw [cell_store (by simp; omega)]
    rfl
  · exact rep_store (rep_alloc below _) _ notChild
  · rw [cell_store_other _ (by omega),cell_alloc]
    rfl

theorem replaces_fresh {h : Heap α} {x children : Placed α} (rep : Rep h prev parent stop (x.append (.one (p,label) children)))
    (separate : Separate (x.append (.one (p,label) children))) (label' : α) :
    Replaces h (x.append (.one (p,label) children)) (x.append (.cons (p,label) children (.one (h.length,label') .nil))) := by
  have live : ∀ q ∈ addresses (x.append (.one (p,label) children)), q < h.length := fun q => rep_live rep
  have whole : addresses (x.append (.cons (p,label) children (.one (h.length,label') .nil))) =
      addresses (x.append (.one (p,label) children)) ++ [h.length] := by
    simp [Forest.one]
  refine ⟨?_,?_,by simp [Forest.one]⟩
  · rw [Separate,whole,List.nodup_append]
    refine ⟨separate,by simp,?_⟩
    rintro q member r new rfl
    have := live q member
    simp only [List.mem_singleton] at new
    omega
  · intro q member
    rw [whole,List.mem_append,List.mem_singleton] at member
    rcases member with old | rfl
    · exact .inl old
    · exact .inr (Nat.le_refl _)

-- A forest in a heap of its own.
def place (n : Nat) : Forest α → Placed α
  | .nil => .nil
  | .cons label children rest => .cons (n,label) (place (n + 1) children) (place (n + 1 + children.size) rest)

def cells (prev parent : Option Nat) : Placed α → Heap α
  | .nil => []
  | .cons (p,label) children rest =>
    some ⟨label,prev,head rest,parent,head children⟩ :: (cells none (some p) children ++ cells (some p) none rest)

def plant (f : Forest α) : Heap α := cells none none (place 0 f)

@[simp] theorem bare_place (n : Nat) (f : Forest α) : bare (place n f) = f := by
  induction f generalizing n with
  | nil => rfl
  | cons label children rest ihChildren ihRest =>
      have below := ihChildren (n + 1)
      have after := ihRest (n + 1 + children.size)
      simp only [bare] at below after ⊢
      simp [place,Forest.map,below,after]

theorem cells_length (prev parent : Option Nat) (n : Nat) (f : Forest α) : (cells prev parent (place n f)).length = f.size := by
  induction f generalizing prev parent n with
  | nil => rfl
  | cons label children rest ihChildren ihRest =>
      simp only [place,cells,Forest.size,List.length_cons,List.length_append,ihChildren,ihRest]
      omega

theorem rep_cells (f : Forest α) (prev parent : Option Nat) (front back : Heap α) :
    Rep (front ++ cells prev parent (place front.length f) ++ back) prev parent none (place front.length f) := by
  induction f generalizing prev parent front back with
  | nil => trivial
  | cons label children rest ihChildren ihRest =>
      refine ⟨?_,?_,?_⟩
      · simp [place,cells,cell]
      · have below := ihChildren none (some front.length) (front ++ [some ⟨label,prev,head (place (front.length + 1 + children.size) rest),
          parent,head (place (front.length + 1) children)⟩]) (cells (some front.length) none (place (front.length + 1 + children.size) rest) ++ back)
        simpa [place,cells] using below
      · have after := ihRest (some front.length) none (front ++ some ⟨label,prev,head (place (front.length + 1 + children.size) rest),
          parent,head (place (front.length + 1) children)⟩ :: cells none (some front.length) (place (front.length + 1) children)) back
        have length : (front ++ some ⟨label,prev,head (place (front.length + 1 + children.size) rest),parent,
            head (place (front.length + 1) children)⟩ :: cells none (some front.length) (place (front.length + 1) children)).length =
            front.length + 1 + children.size := by
          simp [cells_length]
          omega
        rw [length] at after
        simpa [place,cells] using after

theorem rep_plant (f : Forest α) : Rep (plant f) none none none (place 0 f) := by
  have whole := rep_cells f none none [] []
  rwa [List.append_nil,List.nil_append] at whole

theorem addresses_place (n : Nat) (f : Forest α) : addresses (place n f) = List.range' n f.size := by
  induction f generalizing n with
  | nil => rfl
  | cons label children rest ihChildren ihRest =>
      rw [place,addresses_cons,ihChildren,ihRest,Forest.size,List.range'_append_1,show 1 + children.size + rest.size = (children.size + rest.size) + 1 by omega,
        List.range'_succ]

theorem separate_place (n : Nat) (f : Forest α) : Separate (place n f) := by
  rw [Separate,addresses_place]
  exact List.nodup_range'

end
end Linked
