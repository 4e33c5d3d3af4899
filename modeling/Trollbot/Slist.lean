import Mathlib.Data.List.Perm.Subperm
import Mathlib.Data.List.Range
import Trollbot.Foundation.Machine
import Trollbot.Foundation.Paths
import Trollbot.Foundation.Runs

-- The singly linked list that the modules share.
namespace Trollbot.SinglyLinked
open Machine Paths Runs

structure SlistNode where
  data : Option Nat
  next : Option Nat
deriving DecidableEq

-- Whether a function is set for the data that is given up.
structure Slist where
  size : Int
  destroy : Bool
  head : Option Nat
  tail : Option Nat
deriving DecidableEq

-- Beside the memory and the list: the data that destroy was called with, that was put in and that
-- was taken out.
structure State where
  memory : Store SlistNode
  list : Slist
  destroyed : List (Option Nat)
  given : List (Option Nat)
  taken : List (Option Nat)
deriving DecidableEq

def slistInit (destroy : Bool) : State := ⟨[],⟨0,destroy,none,none⟩,[],[],[]⟩

-- INT_MAX
def sizeMax : Int := 2147483647

-- A size past INT_MAX is undefined. The new node's next link is `held` until it is set: tmalloc
-- leaves in it what the memory held.
def slistInsertNext (st : State) (node data held : Option Nat) : Option State :=
  let newnode := st.memory.length
  if st.list.size < sizeMax then
    match node with
    | none => some { st with
        memory := alloc st.memory ⟨data,st.list.head⟩,
        list := { st.list with
          size := st.list.size + 1,head := some newnode,tail := if st.list.size = 0 then some newnode else st.list.tail },
        given := st.given ++ [data] }
    | some p => do
      let n ← read st.memory p
      some { st with
        memory := write (alloc st.memory ⟨data,n.next⟩) p (some { n with next := some newnode }),
        list := { st.list with size := st.list.size + 1,tail := if held = none then some newnode else st.list.tail },
        given := st.given ++ [data] }
  else none

-- The node that is looked for, and the one before it; the loop has no result when the links run in
-- a circle.
def searchNode (memory : Store SlistNode) (node data : Option Nat) : Nat → Option Nat → Option Nat → Option (Option Nat × Option Nat)
  | 0,_,_ => none
  | _+1,lnode,none => some (lnode,none)
  | fuel+1,lnode,some a => do
    let n ← read memory a
    if node = some a ∨ data ≠ none ∧ data = n.data then some (lnode,some a)
    else searchNode memory node data fuel (some a) n.next

-- The size stays, and the node is not freed.
def unlinkNode (st : State) (lnode : Option Nat) (a : Nat) : Option State := do
  let n ← read st.memory a
  let tail := if n.next = none then lnode else st.list.tail
  let destroyed := if st.list.destroy then st.destroyed ++ [n.data] else st.destroyed
  match lnode with
  | none => do
    let first ← st.list.head
    let m ← read st.memory first
    some { st with list := { st.list with head := m.next,tail := tail },destroyed := destroyed,taken := st.taken ++ [n.data] }
  | some l => do
    let m ← read st.memory l
    some { st with
      memory := write st.memory l (some { m with next := n.next }),
      list := { st.list with tail := tail },destroyed := destroyed,taken := st.taken ++ [n.data] }

def slistRemove (st : State) (node data : Option Nat) : Option State := do
  let (lnode,snode) ← searchNode st.memory node data (st.memory.length + 1) none st.list.head
  match snode with
  | none => some st
  | some a => unlinkNode st lnode a

-- The second result is the data when the function gives 0, and nothing when it gives -1.
def slistRemoveNext (st : State) (node : Option Nat) : Option (State × Option (Option Nat)) :=
  if st.list.size = 0 then some (st,none)
  else match node with
    | none => do
      let oldnode ← st.list.head
      let n ← read st.memory oldnode
      some ({ st with
        memory := write st.memory oldnode none,
        list := { st.list with size := st.list.size - 1,head := n.next,tail := if st.list.size = 1 then none else st.list.tail },
        taken := st.taken ++ [n.data] },some n.data)
    | some p => do
      let n ← read st.memory p
      match n.next with
      | none => some (st,none)
      | some oldnode => do
        let old ← read st.memory oldnode
        some ({ st with
          memory := write (write st.memory p (some { n with next := old.next })) oldnode none,
          list := { st.list with size := st.list.size - 1,tail := if old.next = none then some p else st.list.tail },
          taken := st.taken ++ [old.data] },some old.data)

-- One round of slist_destroy's loop.
def slistDestroy (st : State) : Outcome State State :=
  if 0 < st.list.size then
    match slistRemoveNext st none with
    | none => .fault
    | some (later,none) => .next later
    | some (later,some data) => .next (if later.list.destroy then { later with destroyed := later.destroyed ++ [data] } else later)
  else .done st

inductive Change where
  | insertNext (node data held : Option Nat)
  | removeNext (node : Option Nat)
  | remove (node data : Option Nat)
deriving DecidableEq

def change (st : State) : Change → Option State
  | .insertNext node data held => slistInsertNext st node data held
  | .removeNext node => (slistRemoveNext st node).map Prod.fst
  | .remove node data => slistRemove st node data

def next (memory : Store SlistNode) (a : Nat) : Option (Option Nat) := (read memory a).map (·.next)

def dataOf (memory : Store SlistNode) (l : List Nat) : List (Option Nat) := l.filterMap (fun a => (read memory a).map (·.data))

-- The nodes that are reached from the head, and what the list says of them.
structure Lists (st : State) (l : List Nat) : Prop where
  path : Path (next st.memory) st.list.head l
  size : st.list.size = l.length
  tail : st.list.tail = l.getLast?
  data : st.given.Perm (dataOf st.memory l ++ st.taken)

-- slist_destroy ends with every datum of the list destroyed, where there is a function for it.
def Destroys (st : State) (l : List Nat) : Prop :=
  ∃ last, Ends slistDestroy st last ∧ last.list.head = none ∧
    last.destroyed = st.destroyed ++ if st.list.destroy then dataOf st.memory l else []

def Consistent (st : State) : Prop := ∃ l, Lists st l ∧ Destroys st l

def Reached (st : State) (a : Nat) : Prop := ∃ l, Path (next st.memory) st.list.head l ∧ a ∈ l

-- What slist_remove's loop stops at.
def Found (memory : Store SlistNode) (node data : Option Nat) (a : Nat) : Prop :=
  node = some a ∨ data ≠ none ∧ (read memory a).map (·.data) = some data

instance (memory : Store SlistNode) (node data : Option Nat) (a : Nat) : Decidable (Found memory node data a) :=
  inferInstanceAs (Decidable (_ ∨ _ ∧ _))

-- A node of the list or NULL, and any data.
def Valid (st : State) : Change → Prop
  | .insertNext node _ _ => ∀ a ∈ node, Reached st a
  | .removeNext node => ∀ a ∈ node, Reached st a
  | .remove node _ => ∀ a ∈ node, Reached st a

-- An insert behind a node has NULL in the new memory exactly behind the tail, the size has room,
-- and slist_remove does not find a node.
def Spared (st : State) : Change → Prop
  | .insertNext node _ held => st.list.size < sizeMax ∧ ∀ a ∈ node, held = none ↔ next st.memory a = some none
  | .removeNext _ => True
  | .remove node data => ∀ a, Reached st a → ¬Found st.memory node data a

section
variable {memory : Store SlistNode} {st : State}

theorem next_read (here : read memory a = some n) : next memory a = some n.next := by
  simp [next,here]

theorem next_live (leads : next memory a = some onward) : ∃ n, read memory a = some n ∧ n.next = onward :=
  Option.map_eq_some_iff.mp leads

theorem next_same {later : Store SlistNode} (same : read later a = read memory a) : next later a = next memory a := by
  rw [next,same,next]

theorem path_live (path : Path (next memory) p l) (member : a ∈ l) : ∃ n, read memory a = some n := by
  obtain ⟨onward,leads⟩ := span_member path member
  obtain ⟨n,here,-⟩ := next_live leads
  exact ⟨n,here⟩

theorem path_old (path : Path (next memory) p l) (member : a ∈ l) : a ≠ memory.length := by
  obtain ⟨n,here⟩ := path_live path member
  have := read_inside here
  omega

theorem dataOf_frame {later : Store SlistNode} (same : ∀ a ∈ l, read later a = read memory a) : dataOf later l = dataOf memory l := by
  apply List.filterMap_congr
  intro a member
  rw [same a member]

theorem dataOf_append (memory : Store SlistNode) (l m : List Nat) : dataOf memory (l ++ m) = dataOf memory l ++ dataOf memory m := by
  simp [dataOf]

theorem dataOf_cons (here : read memory a = some n) (l : List Nat) : dataOf memory (a :: l) = n.data :: dataOf memory l := by
  simp [dataOf,here]

-- One datum leaves the middle of the list for the end of what was taken.
theorem perm_moved (front back taken : List (Option Nat)) (x : Option Nat) :
    (front ++ x :: back ++ taken).Perm (front ++ back ++ (taken ++ [x])) := by
  simp only [List.append_assoc,List.cons_append]
  apply List.Perm.append_left
  rw [← List.append_assoc]
  exact (List.perm_append_singleton _ _).symm

theorem lists_same (lists : Lists st m) (path : Path (next st.memory) st.list.head l) : m = l := path_unique lists.path path

theorem reached_iff (path : Path (next st.memory) st.list.head l) : Reached st a ↔ a ∈ l := by
  constructor
  · rintro ⟨m,other,member⟩
    rwa [path_unique path other]
  · intro member
    exact ⟨l,path,member⟩

theorem init_lists (destroy : Bool) : Lists (slistInit destroy) [] := ⟨rfl,rfl,rfl,.nil⟩

theorem insert_first (lists : Lists st l) (room : st.list.size < sizeMax) (data held : Option Nat) :
    ∃ later, slistInsertNext st none data held = some later ∧ Lists later (st.memory.length :: l) := by
  have others : ∀ a ∈ l, read (alloc st.memory ⟨data,st.list.head⟩) a = read st.memory a := by
    intro a member
    rw [read_alloc,if_neg (path_old lists.path member)]
  have new : read (alloc st.memory ⟨data,st.list.head⟩) st.memory.length = some ⟨data,st.list.head⟩ := by
    rw [read_alloc,if_pos rfl]
  refine ⟨_,if_pos room,⟨rfl,_,next_read new,?_⟩,?_,?_,?_⟩
  · exact span_frame (fun a member => next_same (others a member)) lists.path
  · simp [lists.size]
  · cases l with
    | nil => simp [lists.size]
    | cons a rest =>
        have size : st.list.size ≠ 0 := by
          rw [lists.size,List.length_cons]
          omega
        simp [size,lists.tail]
  · have held : dataOf (alloc st.memory ⟨data,st.list.head⟩) (st.memory.length :: l) = data :: dataOf st.memory l := by
      rw [dataOf_cons new,dataOf_frame others]
    have moved := perm_moved [] (dataOf st.memory l) st.taken data
    refine (lists.data.append_right [data]).trans ?_
    simpa [held] using moved.symm

theorem nodup_apart {pre post : List Nat} (nodup : (pre ++ a :: post).Nodup) : a ∉ pre ∧ a ∉ post :=
  ⟨fun inside => (List.nodup_append.mp nodup).2.2 a inside a (by simp) rfl,(List.nodup_cons.mp (List.nodup_append.mp nodup).2.1).1⟩

-- Insertion behind a node: all but the tail is right.
theorem insert_behind (lists : Lists st (pre ++ a :: post)) (room : st.list.size < sizeMax) (data held : Option Nat) :
    ∃ later, slistInsertNext st (some a) data held = some later ∧
      Path (next later.memory) later.list.head (pre ++ a :: st.memory.length :: post) ∧
      later.list.size = (pre ++ a :: st.memory.length :: post).length ∧
      later.list.tail = (if held = none then some st.memory.length else st.list.tail) ∧
      later.given.Perm (dataOf later.memory (pre ++ a :: st.memory.length :: post) ++ later.taken) := by
  obtain ⟨n,here⟩ := path_live lists.path (a := a) (by simp)
  obtain ⟨apartPre,apartPost⟩ := nodup_apart (path_nodup lists.path)
  obtain ⟨first,onward,leads,rest⟩ := path_split.mp lists.path
  rw [next_read here,Option.some.injEq] at leads
  subst leads
  have new : st.memory.length ≠ a := (path_old lists.path (by simp)).symm
  have still : read (alloc st.memory ⟨data,n.next⟩) a = some n := by
    rw [read_alloc,if_neg new.symm,here]
  have others : ∀ b ∈ pre ++ post, read (write (alloc st.memory ⟨data,n.next⟩) a (some { n with next := some st.memory.length })) b = read st.memory b := by
    intro b member
    have old : b ≠ st.memory.length := path_old lists.path (by simp at member ⊢; tauto)
    have other : b ≠ a := by
      rcases List.mem_append.mp member with inside | inside
      · exact ne_of_mem_of_not_mem inside apartPre
      · exact ne_of_mem_of_not_mem inside apartPost
    rw [read_write still,if_neg other,read_alloc,if_neg old]
  have changed : read (write (alloc st.memory ⟨data,n.next⟩) a (some { n with next := some st.memory.length })) a =
      some { n with next := some st.memory.length } := by
    rw [read_write still,if_pos rfl]
  have added : read (write (alloc st.memory ⟨data,n.next⟩) a (some { n with next := some st.memory.length })) st.memory.length =
      some ⟨data,n.next⟩ := by
    rw [read_write still,if_neg new,read_alloc,if_pos rfl]
  refine ⟨_,by simp only [slistInsertNext,if_pos room,here,Option.bind_eq_bind,Option.bind_some]; rfl,?_,?_,?_,?_⟩
  · refine path_relink lists.path (fun b member => next_same (others b (by simp [member]))) (next_read changed) ?_
    have onward := next_read added
    refine ⟨rfl,n.next,onward,?_⟩
    exact span_frame (fun b member => next_same (others b (by simp [member]))) rest
  · simp only [lists.size,List.length_append,List.length_cons]
    omega
  · rfl
  · have before : dataOf st.memory (pre ++ a :: post) = dataOf st.memory pre ++ n.data :: dataOf st.memory post := by
      rw [dataOf_append,dataOf_cons here]
    have after : dataOf (write (alloc st.memory ⟨data,n.next⟩) a (some { n with next := some st.memory.length }))
        (pre ++ a :: st.memory.length :: post) = dataOf st.memory pre ++ n.data :: data :: dataOf st.memory post := by
      have front := dataOf_frame (l := pre) (fun b member => others b (by simp [member]))
      have back := dataOf_frame (l := post) (fun b member => others b (by simp [member]))
      rw [dataOf_append,dataOf_cons changed,dataOf_cons added,front,back]
    have joined := lists.data.append_right [data]
    have moved := perm_moved (dataOf st.memory pre ++ [n.data]) (dataOf st.memory post) st.taken data
    rw [before] at joined
    rw [after]
    refine joined.trans ?_
    simpa using moved.symm

theorem size_nonzero (lists : Lists st l) (holds : l ≠ []) : st.list.size ≠ 0 := by
  have size := lists.size
  have counted := List.length_pos_iff.mpr holds
  omega

theorem remove_first (lists : Lists st (a :: rest)) : ∃ later n, read st.memory a = some n ∧
    slistRemoveNext st none = some (later,some n.data) ∧ dataOf later.memory rest = dataOf st.memory rest ∧
    later.list.destroy = st.list.destroy ∧ later.destroyed = st.destroyed ∧ Lists later rest := by
  obtain ⟨n,here⟩ := path_live lists.path (a := a) (by simp)
  obtain ⟨head,onward,leads,more⟩ := lists.path
  rw [next_read here,Option.some.injEq] at leads
  subst leads
  have apart := (List.nodup_cons.mp (path_nodup lists.path)).1
  have others : ∀ b ∈ rest, read (write st.memory a none) b = read st.memory b := by
    intro b member
    rw [read_write here,if_neg (ne_of_mem_of_not_mem member apart)]
  have same := dataOf_frame others
  have size := size_nonzero lists (by simp)
  have taken : st.given.Perm (dataOf st.memory rest ++ (st.taken ++ [n.data])) := by
    have all := lists.data
    rw [dataOf_cons here] at all
    exact all.trans (perm_moved [] (dataOf st.memory rest) st.taken n.data)
  refine ⟨_,n,here,by simp only [slistRemoveNext,if_neg size,head,here,Option.bind_eq_bind,Option.bind_some]; rfl,?_,?_,?_,?_⟩
  · exact same
  · rfl
  · rfl
  refine ⟨span_frame (fun b member => next_same (others b member)) more,?_,?_,?_⟩
  · simp [lists.size]
  · cases rest with
    | nil => simp [lists.size]
    | cons b others =>
        have longer : st.list.size ≠ 1 := by
          rw [lists.size,List.length_cons,List.length_cons]
          omega
        simp [longer,lists.tail]
  · rwa [same]

theorem remove_behind (lists : Lists st (pre ++ a :: b :: post)) :
    ∃ later d, slistRemoveNext st (some a) = some (later,some d) ∧ Lists later (pre ++ a :: post) := by
  obtain ⟨n,here⟩ := path_live lists.path (a := a) (by simp)
  obtain ⟨old,behind⟩ := path_live lists.path (a := b) (by simp)
  have nodup := path_nodup lists.path
  obtain ⟨apartPre,apartPost⟩ := nodup_apart nodup
  rw [List.append_cons] at nodup
  obtain ⟨outsidePre,outsidePost⟩ := nodup_apart nodup
  obtain ⟨first,onward,leads,rest⟩ := path_split.mp lists.path
  obtain ⟨rfl,after,leadsOn,more⟩ := rest
  rw [next_read here,Option.some.injEq] at leads
  rw [next_read behind,Option.some.injEq] at leadsOn
  subst leadsOn
  have differs : b ≠ a := fun same => outsidePre (by simp [same])
  have linked : read (write st.memory a (some { n with next := old.next })) b = some old := by
    rw [read_write here,if_neg differs,behind]
  have changed : read (write (write st.memory a (some { n with next := old.next })) b none) a = some { n with next := old.next } := by
    rw [read_write linked,if_neg differs.symm,read_write here,if_pos rfl]
  have others : ∀ c ∈ pre ++ post, read (write (write st.memory a (some { n with next := old.next })) b none) c = read st.memory c := by
    intro c member
    rcases List.mem_append.mp member with inside | inside
    · have one : c ≠ b := fun same => outsidePre (by simp [← same,inside])
      rw [read_write linked,if_neg one,read_write here,if_neg (ne_of_mem_of_not_mem inside apartPre)]
    · have one : c ≠ a := fun same => apartPost (by simp [← same,inside])
      rw [read_write linked,if_neg (ne_of_mem_of_not_mem inside outsidePost),read_write here,if_neg one]
  have size := size_nonzero lists (by simp)
  refine ⟨_,old.data,by
    simp only [slistRemoveNext,if_neg size,here,leads,behind,Option.bind_eq_bind,Option.bind_some]; rfl,?_,?_,?_,?_⟩
  · refine path_relink lists.path (fun c member => next_same (others c (by simp [member]))) (next_read changed) ?_
    exact span_frame (fun c member => next_same (others c (by simp [member]))) more
  · simp only [lists.size,List.length_append,List.length_cons]
    omega
  · have follows := path_head more
    cases post with
    | nil => simp [show old.next = none from follows]
    | cons c others => simp [show old.next = some c from follows,lists.tail,List.getLast?_append,List.getLast?_cons]
  · have front := dataOf_frame (l := pre) (fun c member => others c (by simp [member]))
    have back := dataOf_frame (l := post) (fun c member => others c (by simp [member]))
    have all := lists.data
    rw [dataOf_append,dataOf_cons here,dataOf_cons behind] at all
    simp only [dataOf_append,dataOf_cons changed,front,back]
    refine all.trans ?_
    simpa using perm_moved (dataOf st.memory pre ++ [n.data]) (dataOf st.memory post) st.taken old.data

theorem remove_behind_last (lists : Lists st (pre ++ [a])) : slistRemoveNext st (some a) = some (st,none) := by
  obtain ⟨n,here⟩ := path_live lists.path (a := a) (by simp)
  obtain ⟨-,onward,leads,rest⟩ := path_split.mp lists.path
  rw [next_read here,Option.some.injEq] at leads
  rw [path_nil] at rest
  simp only [slistRemoveNext,if_neg (size_nonzero lists (by simp)),here,leads,rest,Option.bind_eq_bind,Option.bind_some]

-- The loop takes the nodes off one by one.
theorem lists_destroys (lists : Lists st l) : Destroys st l := by
  induction l generalizing st with
  | nil =>
      have size := lists.size
      refine ⟨st,ends_now ?_,lists.path,?_⟩
      · simp [slistDestroy,size]
      · simp [dataOf]
  | cons a rest ih =>
      obtain ⟨later,n,here,removed,same,flag,log,after⟩ := remove_first lists
      have size : 0 < st.list.size := by
        rw [lists.size,List.length_cons]
        omega
      cases destroys : st.list.destroy with
      | false =>
          obtain ⟨last,ends,gone,all⟩ := ih after
          refine ⟨last,ends_later ?_ ends,gone,?_⟩
          · simp [slistDestroy,size,removed,flag,destroys]
          · simpa [flag,destroys,log] using all
      | true =>
          have again : Lists { later with destroyed := later.destroyed ++ [n.data] } rest := ⟨after.path,after.size,after.tail,after.data⟩
          obtain ⟨last,ends,gone,all⟩ := ih again
          refine ⟨last,ends_later ?_ ends,gone,?_⟩
          · simp [slistDestroy,size,removed,flag,destroys]
          · rw [all,dataOf_cons here]
            simp [flag,destroys,log,same]

theorem consistent_iff : Consistent st ↔ ∃ l, Lists st l := by
  constructor
  · rintro ⟨l,lists,-⟩
    exact ⟨l,lists⟩
  · rintro ⟨l,lists⟩
    exact ⟨l,lists,lists_destroys lists⟩

theorem path_fits (path : Path (next memory) p l) : l.length ≤ memory.length := by
  have inside : l ⊆ List.range memory.length := by
    intro a member
    obtain ⟨n,here⟩ := path_live path member
    exact List.mem_range.mpr (read_inside here)
  simpa using ((path_nodup path).subperm inside).length_le

theorem search_step (here : read memory a = some n) (fuel : Nat) (lnode : Option Nat) :
    searchNode memory node data (fuel + 1) lnode (some a) =
      if Found memory node data a then some (lnode,some a) else searchNode memory node data fuel (some a) n.next := by
  have same : (node = some a ∨ data ≠ none ∧ data = n.data) ↔ Found memory node data a := by
    simp [Found,here,eq_comm]
  simp only [searchNode,here,Option.bind_eq_bind,Option.bind_some]
  by_cases found : Found memory node data a
  · rw [if_pos found,if_pos (same.mpr found)]
  · rw [if_neg found,if_neg (fun other => found (same.mp other))]

theorem search_misses (path : Path (next memory) p l) (misses : ∀ a ∈ l, ¬Found memory node data a) (enough : l.length < fuel)
    (lnode : Option Nat) : ∃ last, searchNode memory node data fuel lnode p = some (last,none) := by
  induction l generalizing p lnode fuel with
  | nil =>
      rw [path_nil] at path
      cases fuel with
      | zero => simp at enough
      | succ fuel => exact ⟨lnode,by simp [searchNode,path]⟩
  | cons a rest ih =>
      obtain ⟨rfl,onward,leads,more⟩ := path
      obtain ⟨n,here,rfl⟩ := next_live leads
      cases fuel with
      | zero => simp at enough
      | succ fuel =>
          rw [search_step here,if_neg (misses a (by simp))]
          exact ih more (fun b member => misses b (by simp [member])) (by simpa using enough) (some a)

theorem search_finds (path : Path (next memory) p (pre ++ a :: post)) (misses : ∀ b ∈ pre, ¬Found memory node data b)
    (found : Found memory node data a) (enough : pre.length < fuel) (lnode : Option Nat) :
    searchNode memory node data fuel lnode p = some (pre.getLast?.or lnode,some a) := by
  induction pre generalizing p lnode fuel with
  | nil =>
      obtain ⟨rfl,onward,leads,more⟩ := path
      obtain ⟨n,here,rfl⟩ := next_live leads
      cases fuel with
      | zero => simp at enough
      | succ fuel =>
          rw [search_step here,if_pos found]
          rfl
  | cons b rest ih =>
      obtain ⟨rfl,onward,leads,more⟩ := path
      obtain ⟨n,here,rfl⟩ := next_live leads
      cases fuel with
      | zero => simp at enough
      | succ fuel =>
          rw [search_step here,if_neg (misses b (by simp)),ih more (fun c member => misses c (by simp [member])) (by simpa using enough)]
          cases rest <;> simp [List.getLast?_cons]

-- The node is off the links and still counted.
theorem unlink_counted (lists : Lists st (pre ++ a :: post)) : ∃ later, unlinkNode st pre.getLast? a = some later ∧
    Path (next later.memory) later.list.head (pre ++ post) ∧ later.list.size = (pre ++ a :: post).length := by
  obtain ⟨n,here⟩ := path_live lists.path (a := a) (by simp)
  obtain ⟨first,onward,leads,rest⟩ := path_split.mp lists.path
  rw [next_read here,Option.some.injEq] at leads
  subst leads
  rcases List.eq_nil_or_concat pre with rfl | ⟨early,l,rfl⟩
  · have head : st.list.head = some a := first
    refine ⟨_,by simp only [unlinkNode,here,head,List.getLast?_nil,Option.bind_eq_bind,Option.bind_some]; rfl,?_,?_⟩
    · exact rest
    · exact lists.size
  · rw [List.concat_eq_append] at first lists ⊢
    have split : early ++ [l] ++ a :: post = early ++ l :: a :: post := by simp
    have path := lists.path
    rw [split] at path
    obtain ⟨m,before⟩ := path_live path (a := l) (by simp)
    obtain ⟨apartPre,apartPost⟩ := nodup_apart (path_nodup path)
    have others : ∀ c, c ≠ l → read (write st.memory l (some { m with next := n.next })) c = read st.memory c := by
      intro c other
      rw [read_write before,if_neg other]
    have changed : read (write st.memory l (some { m with next := n.next })) l = some { m with next := n.next } := by
      rw [read_write before,if_pos rfl]
    refine ⟨_,by simp only [unlinkNode,here,before,List.getLast?_concat,Option.bind_eq_bind,Option.bind_some]; rfl,?_,?_⟩
    · have kept : Path (next (write st.memory l (some { m with next := n.next }))) n.next post := by
        refine span_frame (fun c member => next_same (others c ?_)) rest
        exact fun same => apartPost (by simp [← same,member])
      rw [List.append_assoc]
      exact path_relink path (fun c member => next_same (others c (ne_of_mem_of_not_mem member apartPre))) (next_read changed) kept
    · exact lists.size

theorem remove_missing (lists : Lists st l) (misses : ∀ a ∈ l, ¬Found st.memory node data a) : slistRemove st node data = some st := by
  obtain ⟨last,searched⟩ := search_misses lists.path misses (Nat.lt_succ_of_le (path_fits lists.path)) none
  simp [slistRemove,searched]

theorem remove_counted (lists : Lists st l) (member : a ∈ l) (found : Found st.memory node data a) :
    ∃ later, slistRemove st node data = some later ∧ ¬Consistent later := by
  obtain ⟨b,first⟩ : ∃ b, l.find? (fun c => decide (Found st.memory node data c)) = some b := by
    rw [← Option.isSome_iff_exists,List.find?_isSome]
    exact ⟨a,member,by simpa using found⟩
  obtain ⟨hit,pre,post,rfl,misses⟩ := List.find?_eq_some_iff_append.mp first
  have fits := path_fits lists.path
  simp only [List.length_append,List.length_cons] at fits
  have searched : searchNode st.memory node data (st.memory.length + 1) none st.list.head = some (pre.getLast?.or none,some b) := by
    apply search_finds lists.path
    · intro c inside
      simpa using misses c inside
    · simpa using hit
    · omega
  obtain ⟨later,unlinked,path,size⟩ := unlink_counted lists
  refine ⟨later,by simpa [slistRemove,searched] using unlinked,?_⟩
  rw [consistent_iff]
  rintro ⟨m,after⟩
  have counted := after.size
  rw [lists_same after path,size] at counted
  simp only [List.length_append,List.length_cons] at counted
  omega

theorem tail_right (new : a ∉ pre ++ b :: post) : (if held = none then some a else (pre ++ b :: post).getLast?) = (pre ++ b :: a :: post).getLast? ↔
    (held = none ↔ post = []) := by
  rcases List.eq_nil_or_concat post with rfl | ⟨early,z,rfl⟩
  · have other : b ≠ a := fun same => new (by simp [same])
    by_cases null : held = none <;> simp [null,other]
  · rw [List.concat_eq_append] at new ⊢
    have other : a ≠ z := fun same => new (by simp [same])
    have before : (pre ++ b :: (early ++ [z])).getLast? = some z := by
      rw [← List.cons_append,← List.append_assoc,List.getLast?_concat]
    have after : (pre ++ b :: a :: (early ++ [z])).getLast? = some z := by
      rw [← List.cons_append,← List.cons_append,← List.append_assoc,List.getLast?_concat]
    by_cases null : held = none <;> simp [null,other,before,after]

theorem next_last (path : Path (next memory) p (pre ++ a :: post)) : next memory a = some none ↔ post = [] := by
  obtain ⟨-,onward,leads,rest⟩ := path_split.mp path
  rw [leads,Option.some.injEq,path_head rest,List.head?_eq_none_iff]

theorem insert_exact (lists : Lists st l) (valid : Valid st (.insertNext node data held)) :
    (∃ later, slistInsertNext st node data held = some later ∧ Consistent later) ↔ Spared st (.insertNext node data held) := by
  by_cases room : st.list.size < sizeMax
  · cases node with
    | none =>
        refine iff_of_true ?_ ⟨room,by simp⟩
        obtain ⟨later,inserted,after⟩ := insert_first lists room data held
        exact ⟨later,inserted,consistent_iff.mpr ⟨_,after⟩⟩
    | some a =>
        obtain ⟨pre,post,rfl⟩ := List.append_of_mem ((reached_iff lists.path).mp (valid a rfl))
        obtain ⟨later,inserted,path,size,tail,kept⟩ := insert_behind lists room data held
        have new : st.memory.length ∉ pre ++ a :: post := fun member => path_old lists.path member rfl
        have last := next_last lists.path
        rw [lists.tail] at tail
        have suits : Spared st (.insertNext (some a) data held) ↔ (held = none ↔ post = []) := by
          simp [Spared,room,last]
        rw [suits,← tail_right new,← tail]
        constructor
        · rintro ⟨other,same,consistent⟩
          rw [inserted,Option.some.injEq] at same
          subst same
          obtain ⟨m,after⟩ := consistent_iff.mp consistent
          have right := after.tail
          rwa [lists_same after path] at right
        · intro right
          exact ⟨later,inserted,consistent_iff.mpr ⟨_,path,size,right,kept⟩⟩
  · refine iff_of_false ?_ (fun spared => room spared.1)
    rintro ⟨later,inserted,-⟩
    unfold slistInsertNext at inserted
    simp only [if_neg room] at inserted
    cases inserted

theorem removeNext_keeps (lists : Lists st l) (valid : Valid st (.removeNext node)) :
    ∃ later, change st (.removeNext node) = some later ∧ Consistent later := by
  cases node with
  | none =>
      cases l with
      | nil =>
          have size := lists.size
          exact ⟨st,by simp [change,slistRemoveNext,size],consistent_iff.mpr ⟨[],lists⟩⟩
      | cons a rest =>
          obtain ⟨later,n,-,removed,-,-,-,after⟩ := remove_first lists
          exact ⟨later,by simp [change,removed],consistent_iff.mpr ⟨rest,after⟩⟩
  | some a =>
      obtain ⟨pre,post,rfl⟩ := List.append_of_mem ((reached_iff lists.path).mp (valid a rfl))
      cases post with
      | nil => exact ⟨st,by simp [change,remove_behind_last lists],consistent_iff.mpr ⟨_,lists⟩⟩
      | cons b post =>
          obtain ⟨later,d,removed,after⟩ := remove_behind lists
          exact ⟨later,by simp [change,removed],consistent_iff.mpr ⟨_,after⟩⟩

theorem remove_exact (lists : Lists st l) :
    (∃ later, slistRemove st node data = some later ∧ Consistent later) ↔ Spared st (.remove node data) := by
  constructor
  · rintro ⟨later,removed,consistent⟩ a reached found
    obtain ⟨other,counted,broken⟩ := remove_counted lists ((reached_iff lists.path).mp reached) found
    rw [removed,Option.some.injEq] at counted
    subst counted
    exact broken consistent
  · intro spared
    have missing := remove_missing lists (fun a member => spared a ((reached_iff lists.path).mpr member))
    exact ⟨st,missing,consistent_iff.mpr ⟨l,lists⟩⟩

theorem change_exact (event : Change) (consistent : Consistent st) (valid : Valid st event) :
    (∃ later, change st event = some later ∧ Consistent later) ↔ Spared st event := by
  obtain ⟨l,lists⟩ := consistent_iff.mp consistent
  cases event with
  | insertNext node data held => exact insert_exact lists valid
  | removeNext node => exact iff_of_true (removeNext_keeps lists valid) trivial
  | remove node data => exact remove_exact lists

theorem init_consistent (destroy : Bool) : Consistent (slistInit destroy) := consistent_iff.mpr ⟨[],init_lists destroy⟩

-- Over every sequence of valid calls the list is consistent in each state, and each call is
-- defined, exactly when each call is spared.
theorem list_stays_consistent (destroy : Bool) (calls : List Change) (valid : Meets change Valid (slistInit destroy) calls) :
    Through change Consistent (fun _ => False) (slistInit destroy) calls ↔ Meets change Spared (slistInit destroy) calls :=
  through_exact (fun _ event consistent fits => change_exact event consistent fits) (init_consistent destroy) valid

end

def calledThrice : List Change := [.insertNext none (some 7) none,.insertNext (some 0) (some 8) none,.removeNext none]

theorem three_calls_consistent :
    Meets change Spared (slistInit true) calledThrice ∧ Through change Consistent (fun _ => False) (slistInit true) calledThrice := by
  have valid : Meets change Valid (slistInit true) calledThrice := by
    refine meets_taken (by simp [Valid]) rfl (meets_taken ?_ rfl (meets_taken (by simp [Valid]) rfl trivial))
    intro a member
    cases member
    exact ⟨[0],⟨rfl,none,rfl,rfl⟩,by simp⟩
  have spared : Meets change Spared (slistInit true) calledThrice :=
    meets_taken ⟨by decide,nofun⟩ rfl (meets_taken ⟨by decide,fun a member => by cases member; decide⟩ rfl (meets_taken trivial rfl trivial))
  exact ⟨spared,(list_stays_consistent true calledThrice valid).mpr spared⟩

def insertedAndRemoved : List Change := [.insertNext none (some 7) none,.remove (some 0) none]

-- The list has no node left and the size 1, so slist_destroy follows its null head.
theorem removed_node_counted : Meets change Valid (slistInit true) insertedAndRemoved ∧
    ¬Through change Consistent (fun _ => False) (slistInit true) insertedAndRemoved := by
  refine ⟨meets_taken (by simp [Valid]) rfl (meets_taken ?_ rfl trivial),?_⟩
  · intro a member
    cases member
    exact ⟨[0],⟨rfl,none,rfl,rfl⟩,by simp⟩
  · intro through
    have last := through_reached through (rfl : run change (slistInit true) insertedAndRemoved = some _)
    obtain ⟨l,lists⟩ := consistent_iff.mp last
    have size := lists.size
    rw [lists_same lists (l := []) rfl] at size
    cases size

end Trollbot.SinglyLinked
