import Trollbot.Foundation.Forest
import Trollbot.Foundation.Options

-- Heaps of linked records to which links are only added, and first children without their parent.
namespace Linked
section
variable {α : Type} {fixed : α → Prop}

theorem store_twice (h : Heap α) (p : Nat) (n m : Node α) : store (store h p n) p m = store h p m := by
  simp [store]

theorem cell_beside {h : Heap α} (m n : Node α) (live : q < h.length) (other : q ≠ p) : cell (store (alloc h m) p n) q = cell h q := by
  rw [cell_store_other _ other,cell_alloc_old _ live]

-- Next and child links stay where they are, as does a fixed label, and a parent link is not given.
structure GrowsTo (fixed : α → Prop) (n m : Node α) : Prop where
  next : ∀ q, n.next = some q → m.next = some q
  child : ∀ q, n.child = some q → m.child = some q
  label : fixed n.label → m.label = n.label
  parent : n.parent = none → m.parent = none

def Grows (fixed : α → Prop) (h later : Heap α) : Prop := ∀ p n, cell h p = some n → ∃ m, cell later p = some m ∧ GrowsTo fixed n m

theorem GrowsTo.refl (n : Node α) : GrowsTo fixed n n := ⟨fun _ same => same,fun _ same => same,fun _ => rfl,fun same => same⟩

theorem GrowsTo.trans {n m l : Node α} (first : GrowsTo fixed n m) (second : GrowsTo fixed m l) : GrowsTo fixed n l := by
  refine ⟨fun q there => second.next q (first.next q there),fun q there => second.child q (first.child q there),?_,
    fun missing => second.parent (first.parent missing)⟩
  intro stays
  have same := first.label stays
  exact (second.label (same ▸ stays)).trans same

theorem Grows.refl (h : Heap α) : Grows fixed h h := fun _ n here => ⟨n,here,.refl n⟩

theorem Grows.trans {h middle later : Heap α} (first : Grows fixed h middle) (second : Grows fixed middle later) : Grows fixed h later := by
  intro p n here
  obtain ⟨m,middle',more⟩ := first p n here
  obtain ⟨l,last,most⟩ := second p m middle'
  exact ⟨l,last,more.trans most⟩

theorem grows_alloc (h : Heap α) (n : Node α) : Grows fixed h (alloc h n) :=
  fun _ m here => ⟨m,(cell_alloc_old n (cell_bound here)).trans here,.refl m⟩

theorem grows_store {h : Heap α} (here : cell h p = some n) (more : GrowsTo fixed n m) : Grows fixed h (store h p m) := by
  intro q n' live
  by_cases own : q = p
  · subst own
    obtain rfl := Option.some.inj (here.symm.trans live)
    exact ⟨m,cell_store (cell_bound here) m,more⟩
  · exact ⟨n',(cell_store_other m own).trans live,.refl n'⟩

-- A new record behind another one, and as a child, where there was none.
theorem grows_behind {h : Heap α} (here : cell h p = some n) (last : n.next = none) (m : Node α) :
    Grows fixed h (store (alloc h m) p { n with next := some h.length }) := by
  refine (grows_alloc h m).trans (grows_store ((cell_alloc_old m (cell_bound here)).trans here)
    ⟨?_,fun _ same => same,fun _ => rfl,fun same => same⟩)
  intro q bad
  rw [last] at bad
  cases bad

theorem grows_child {h : Heap α} (here : cell h p = some n) (childless : n.child = none) (m : Node α) (up : n.parent = none → upper = none) :
    Grows fixed h (store (alloc h m) p { n with parent := upper,child := some h.length }) := by
  refine (grows_alloc h m).trans (grows_store ((cell_alloc_old m (cell_bound here)).trans here)
    ⟨fun _ same => same,?_,fun _ => rfl,up⟩)
  intro q bad
  rw [childless] at bad
  cases bad

-- The same of the records with a fixed label only; what becomes of the others is left open.
def Firm (fixed : α → Prop) (h later : Heap α) : Prop :=
  ∀ p n, cell h p = some n → fixed n.label → ∃ m, cell later p = some m ∧ GrowsTo fixed n m

theorem Grows.firm {h later : Heap α} (grows : Grows fixed h later) : Firm fixed h later := fun p n here _ => grows p n here

theorem Firm.trans {h middle later : Heap α} (first : Firm fixed h middle) (second : Firm fixed middle later) : Firm fixed h later := by
  intro p n here stays
  obtain ⟨m,there,more⟩ := first p n here stays
  obtain ⟨l,last,most⟩ := second p m there (more.label stays ▸ stays)
  exact ⟨l,last,more.trans most⟩

theorem firm_beside {h later : Heap α} (here : cell h p = some n) (loose : ¬fixed n.label)
    (others : ∀ q, q < h.length → q ≠ p → cell later q = cell h q) : Firm fixed h later := by
  intro q n' live stays
  by_cases own : q = p
  · subst own
    obtain rfl := Option.some.inj (here.symm.trans live)
    exact absurd stays loose
  · exact ⟨n',(others q (cell_bound live) own).trans live,.refl n'⟩

-- The forest that the next and child links from an address lead through.
def Leads (h : Heap α) : Option Nat → Forest α → Prop
  | start,.nil => start = none
  | start,.cons label children rest => ∃ p n, start = some p ∧ cell h p = some n ∧ n.label = label ∧
      Leads h n.child children ∧ Leads h n.next rest

theorem rep_leads {h : Heap α} {a : Placed α} (rep : Rep h prev parent none a) : Leads h (head a) (a.map Prod.snd) := by
  induction a generalizing prev parent with
  | nil => rfl
  | cons label children rest ihChildren ihRest =>
      obtain ⟨p,label⟩ := label
      obtain ⟨here,below,after⟩ := rep
      refine ⟨p,_,rfl,here,rfl,ihChildren below,?_⟩
      simpa using ihRest after

-- Where a forest has fixed labels at the top, a later one goes on from it, block by block.
theorem leads_goesOn {h later : Heap α} {a b : Forest α} (firm : Firm fixed h later) (old : Leads h start a) (new : Leads later start' b)
    (stays : ∀ label ∈ a.row, fixed label) (onto : ∀ p, start = some p → start' = some p) :
    Options.GoesOn (fun x y => x.1 = y.1 ∧ ∃ p q, Leads h p x.2 ∧ Leads later q y.2 ∧ ∀ r, p = some r → q = some r) a.blocks b.blocks := by
  induction a generalizing start start' b with
  | nil => exact .more
  | cons label children rest _ ih =>
      obtain ⟨p,n,rfl,here,rfl,below,after⟩ := old
      obtain ⟨m,there,more⟩ := firm p n here (stays _ (by simp [Forest.row]))
      cases b with
      | nil => exact absurd (onto p rfl) (by rw [show start' = none from new]; simp)
      | cons label' children' rest' =>
          obtain ⟨q,m',first,live,rfl,below',after'⟩ := new
          obtain rfl := Option.some.inj ((onto p rfl).symm.trans first)
          obtain rfl := Option.some.inj (there.symm.trans live)
          refine .kept ⟨(more.label (stays _ (by simp [Forest.row]))).symm,_,_,below,below',more.child⟩ ?_
          exact ih after after' (fun label inside => stays label (by simp [Forest.row,inside])) more.next

-- From a sibling on, a first child does not point to its parent. `parent` is what the sibling itself
-- should point to.
inductive Orphan (h : Heap α) : Option Nat → Nat → Prop where
  | here : cell h p = some n → n.parent = none → Orphan h (some upper) p
  | next : cell h p = some n → n.next = some q → Orphan h none q → Orphan h parent p
  | child : cell h p = some n → n.child = some q → Orphan h (some p) q → Orphan h parent p

theorem Orphan.grows {h later : Heap α} (orphan : Orphan h parent p) (grows : Grows fixed h later) : Orphan later parent p := by
  induction orphan with
  | here live lost =>
      obtain ⟨m,live',more⟩ := grows _ _ live
      exact .here live' (more.parent lost)
  | next live link _ ih =>
      obtain ⟨m,live',more⟩ := grows _ _ live
      exact .next live' (more.next _ link) ih
  | child live link _ ih =>
      obtain ⟨m,live',more⟩ := grows _ _ live
      exact .child live' (more.child _ link) ih

theorem rep_orphan {h : Heap α} {b : Placed α} (rep : Rep h prev parent none b) (start : head b = some p) : ¬Orphan h parent p := by
  intro orphan
  induction orphan generalizing prev b with
  | here live lost =>
      obtain ⟨label,children,rest,rfl⟩ := head_opens start
      obtain rfl := Option.some.inj (live.symm.trans rep.1)
      cases lost
  | next live link _ ih =>
      obtain ⟨label,children,rest,rfl⟩ := head_opens start
      obtain rfl := Option.some.inj (live.symm.trans rep.1)
      exact ih rep.2.2 (by simpa using link)
  | child live link _ ih =>
      obtain ⟨label,children,rest,rfl⟩ := head_opens start
      obtain rfl := Option.some.inj (live.symm.trans rep.1)
      exact ih rep.2.1 link

-- A record of the tree that had a parent has none any more.
theorem orphan_made {h later : Heap α} {b : Placed α} (rep : Rep h prev parent none b) (grows : Grows fixed h later) (start : head b = some p)
    (member : q ∈ addresses b) (live : cell h q = some n) (owned : n.parent ≠ none) (live' : cell later q = some m) (lost : m.parent = none) :
    Orphan later parent p := by
  induction b generalizing prev parent p with
  | nil => cases member
  | cons label children rest ihChildren ihRest =>
      obtain ⟨r,label⟩ := label
      obtain rfl : r = p := Option.some.inj start
      obtain ⟨here,below,after⟩ := rep
      obtain ⟨m',here',more⟩ := grows _ _ here
      simp only [addresses_cons,List.mem_cons,List.mem_append] at member
      rcases member with rfl | inChildren | inRest
      · obtain rfl := Option.some.inj (here.symm.trans live)
        obtain ⟨upper,rfl⟩ := Option.ne_none_iff_exists'.mp owned
        exact .here live' lost
      · obtain ⟨c,first⟩ := head_some (show children ≠ .nil by rintro rfl; cases inChildren)
        exact .child here' (more.child c first) (ihChildren below first inChildren)
      · obtain ⟨c,first⟩ := head_some (show rest ≠ .nil by rintro rfl; cases inRest)
        exact .next here' (more.next c (by simp [first])) (ihRest after first inRest)

-- Addresses that the links of their records do not leave.
def Closed (own : Nat → Prop) (h : Heap α) : Prop := ∀ p n, own p → cell h p = some n →
  ∀ q, n.prev = some q ∨ n.next = some q ∨ n.parent = some q ∨ n.child = some q → own q

section closed
variable {own : Nat → Prop} {h : Heap α}

theorem closed_walkBack {stops : Node α → Bool} (closed : Closed own h) (mine : own p) (walked : walkBack h stops fuel p = some q) :
    own q := by
  induction fuel generalizing p with
  | zero => cases walked
  | succ fuel ih =>
      rw [walkBack] at walked
      obtain ⟨n,here,walked⟩ := Option.bind_eq_some_iff.mp walked
      split at walked
      · cases walked
        exact mine
      · obtain ⟨r,back,walked⟩ := Option.bind_eq_some_iff.mp walked
        exact ih (closed p n mine here r (.inl back)) walked

theorem closed_walkOn {found : α → Bool} (closed : Closed own h) (mine : ∀ q, start = some q → own q)
    (walked : walkOn h found fuel start passed = some (some q,last)) : own q := by
  induction fuel generalizing start passed with
  | zero =>
      cases start with
      | none => cases walked
      | some p => cases walked
  | succ fuel ih =>
      cases start with
      | none => cases walked
      | some p =>
          rw [walkOn] at walked
          obtain ⟨n,here,walked⟩ := Option.bind_eq_some_iff.mp walked
          split at walked
          · cases walked
            exact mine q rfl
          · exact ih (fun r next => closed p n (mine p rfl) here r (.inr (.inl next))) walked

-- The walk to the end stops at the end, or at a record that does not let it on.
theorem closed_walkEnd {goes : α → Bool} (closed : Closed own h) (mine : own p) (walked : walkEnd h goes fuel p = some q) :
    own q ∧ ∃ n, cell h q = some n ∧ (n.next = none ∨ goes n.label = false) := by
  induction fuel generalizing p with
  | zero => cases walked
  | succ fuel ih =>
      rw [walkEnd] at walked
      obtain ⟨n,here,walked⟩ := Option.bind_eq_some_iff.mp walked
      cases next : n.next with
      | none =>
          simp only [next,Option.some.injEq] at walked
          subst walked
          exact ⟨mine,n,here,.inl next⟩
      | some r =>
          simp only [next] at walked
          split at walked
          · exact ih (closed p n mine here r (.inr (.inl next))) walked
          · rename_i stops
            cases walked
            exact ⟨mine,n,here,.inr (by simpa using stops)⟩

theorem rep_closed {a : Placed α} (rep : Rep h prev parent stop a) (mine : ∀ q ∈ addresses a, own q)
    (outside : ∀ q, prev = some q ∨ parent = some q ∨ stop = some q → own q) (member : p ∈ addresses a) (live : cell h p = some n) :
    ∀ q, n.prev = some q ∨ n.next = some q ∨ n.parent = some q ∨ n.child = some q → own q := by
  have heads : ∀ b : Placed α, (∀ q ∈ addresses b, own q) → ∀ q, head b = some q → own q := by
    intro b inside q start
    cases b with
    | nil => cases start
    | cons label children rest =>
        cases start
        exact inside _ (by simp [addresses,Forest.labels])
  induction a generalizing prev parent stop with
  | nil => cases member
  | cons label children rest ihChildren ihRest =>
      obtain ⟨r,label⟩ := label
      obtain ⟨here,below,after⟩ := rep
      simp only [addresses_cons,List.mem_cons,List.mem_append] at member mine
      have self := mine r (.inl rfl)
      rcases member with rfl | inChildren | inRest
      · obtain rfl := Option.some.inj (here.symm.trans live)
        intro q link
        rcases link with back | next | up | down
        · exact outside q (.inl back)
        · rcases Option.or_eq_some_iff.mp next with first | ⟨-,last⟩
          · exact heads rest (fun s inside => mine s (.inr (.inr inside))) q first
          · exact outside q (.inr (.inr last))
        · exact outside q (.inr (.inl up))
        · exact heads children (fun s inside => mine s (.inr (.inl inside))) q down
      · refine ihChildren below (fun q inside => mine q (.inr (.inl inside))) ?_ inChildren
        intro q link
        rcases link with bad | up | bad
        · cases bad
        · exact Option.some.inj up ▸ self
        · cases bad
      · refine ihRest after (fun q inside => mine q (.inr (.inr inside))) ?_ inRest
        intro q link
        rcases link with back | bad | last
        · exact Option.some.inj back ▸ self
        · cases bad
        · exact outside q (.inr (.inr last))

end closed
end
end Linked
