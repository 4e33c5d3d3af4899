import Mathlib.Logic.Function.Basic
import Trollbot.Foundation.Forest

-- A heap of linked records, told level by level. A path of ordinals, innermost first, names the
-- level below a record; the empty path is the top.
namespace Linked

abbrev Levels (α : Type) := List Nat → List (Nat × α)

section
variable {α : Type}

def placeAt (levels : Levels α) (path : List Nat) (i : Nat) : Option Nat := (levels path)[i]?.map Prod.fst

def before (place : List Nat → Nat → Option Nat) (path : List Nat) : Nat → Option Nat
  | 0 => none
  | j+1 => place path j

-- The record at an ordinal of a level, where `place` tells the addresses.
def nodeAt (place : List Nat → Nat → Option Nat) (path : List Nat) (i : Nat) (label : α) : Node α where
  label := label
  prev := before place path i
  next := place path (i + 1)
  parent := match i,path with
    | 0,j :: above => place above j
    | _,_ => none
  child := place (i :: path) 0

structure Laid (h : Heap α) (levels : Levels α) : Prop where
  cells : ∀ path i p label, (levels path)[i]? = some (p,label) → cell h p = some (nodeAt (placeAt levels) path i label)
  once : ∀ path i path' i' p, placeAt levels path i = some p → placeAt levels path' i' = some p → path = path' ∧ i = i'
  owned : ∀ i path, levels (i :: path) ≠ [] → i < (levels path).length

theorem placeAt_some {levels : Levels α} : placeAt levels path i = some p ↔ ∃ label, (levels path)[i]? = some (p,label) := by
  simp [placeAt]

theorem placeAt_none {levels : Levels α} : placeAt levels path i = none ↔ (levels path).length ≤ i := by
  simp [placeAt]

theorem placeAt_inside {levels : Levels α} (here : placeAt levels path i = some p) : i < (levels path).length := by
  by_contra outside
  rw [placeAt_none.mpr (by omega)] at here
  cases here

theorem placeAt_get (levels : Levels α) (path : List Nat) (inside : i < (levels path).length) :
    placeAt levels path i = some (levels path)[i].1 := by
  rw [placeAt,List.getElem?_eq_getElem inside,Option.map_some]

theorem placeAt_exists (levels : Levels α) (path : List Nat) (inside : i < (levels path).length) :
    ∃ p, placeAt levels path i = some p :=
  ⟨_,placeAt_get levels path inside⟩

section
variable {h : Heap α} {levels : Levels α} (laid : Laid h levels)
include laid

theorem laid_live (here : placeAt levels path i = some p) : p < h.length := by
  obtain ⟨label,here⟩ := placeAt_some.mp here
  exact cell_bound (laid.cells path i p label here)

theorem laid_fits (path : List Nat) : (levels path).length ≤ h.length := by
  have rowNodup : ((levels path).map Prod.fst).Nodup := by
    rw [List.nodup_iff_injective_getElem]
    intro i j same
    simp only [List.getElem_map] at same
    have first := placeAt_get levels path (by simpa using i.isLt)
    have second := placeAt_get levels path (by simpa using j.isLt)
    rw [← same] at second
    exact Fin.ext (laid.once _ _ _ _ _ first second).2
  have inside : (levels path).map Prod.fst ⊆ List.range h.length := by
    intro p member
    obtain ⟨i,bound,rfl⟩ := List.mem_iff_getElem.mp member
    rw [List.getElem_map]
    exact List.mem_range.mpr (laid_live laid (placeAt_get levels path (by simpa using bound)))
  simpa using (List.subperm_of_subset rowNodup inside).length_le

theorem laid_rewind (here : placeAt levels path i = some p) : rewind h p = placeAt levels path 0 := by
  have walks : ∀ i fuel p, placeAt levels path i = some p → i < fuel →
      walkBack h (fun n => n.prev.isNone) fuel p = placeAt levels path 0 := by
    intro i
    induction i with
    | zero =>
        intro fuel p here enough
        obtain ⟨label,inRow⟩ := placeAt_some.mp here
        cases fuel with
        | zero => omega
        | succ fuel => simp [walkBack,laid.cells _ _ _ _ inRow,nodeAt,before,here]
    | succ i ih =>
        intro fuel p here enough
        obtain ⟨label,inRow⟩ := placeAt_some.mp here
        obtain ⟨q,back⟩ := placeAt_exists levels path (Nat.lt_of_succ_lt (placeAt_inside here))
        cases fuel with
        | zero => omega
        | succ fuel =>
            have earlier := ih fuel q back (by omega)
            simp [walkBack,laid.cells _ _ _ _ inRow,nodeAt,Linked.before,back,earlier]
  have fits := laid_fits laid path
  have inside := placeAt_inside here
  exact walks i h.length p here (by omega)

-- The loop over a level up to an ordinal.
theorem laid_walks (found : α → Bool) (path : List Nat) (i : Nat) (misses : ∀ j < i, ∀ p label, (levels path)[j]? = some (p,label) → found label = false)
    (inside : i ≤ (levels path).length) (fuel : Nat) :
    walkOn h found (fuel + i) (placeAt levels path 0) none =
      walkOn h found fuel (placeAt levels path i) (before (placeAt levels) path i) := by
  induction i generalizing fuel with
  | zero => rfl
  | succ i ih =>
      have regroup : fuel + (i + 1) = (fuel + 1) + i := by omega
      have earlier := ih (fun j earlier => misses j (by omega)) (by omega) (fuel + 1)
      obtain ⟨p,here⟩ := placeAt_exists levels path (show i < (levels path).length by omega)
      obtain ⟨label,inRow⟩ := placeAt_some.mp here
      have miss := misses i (by omega) p label inRow
      rw [regroup,earlier]
      simp only [here,walkOn,laid.cells _ _ _ _ inRow,Option.bind_eq_bind,Option.bind_some,nodeAt,miss,
        Bool.false_eq_true,if_false,before]

theorem laid_none {found : α → Bool} (misses : ∀ label ∈ (levels path).map Prod.snd, found label = false) :
    walkOn h found h.length (placeAt levels path 0) none =
      some (none,before (placeAt levels) path (levels path).length) := by
  have fits := laid_fits laid path
  have walks := laid_walks laid found path (levels path).length
    (fun j _ p label inRow => misses label (List.mem_map.mpr ⟨_,List.mem_of_getElem? inRow,rfl⟩)) (Nat.le_refl _)
    (h.length - (levels path).length)
  rw [Nat.sub_add_cancel fits,placeAt_none.mpr (Nat.le_refl _)] at walks
  rw [walks]
  cases h.length - (levels path).length <;> rfl

theorem laid_found {i : Nat} (found : α → Bool) (misses : ∀ j < i, ∀ p label, (levels path)[j]? = some (p,label) → found label = false)
    (here : (levels path)[i]? = some (p,label)) (hit : found label = true) :
    ∃ passed, walkOn h found h.length (placeAt levels path 0) none = some (some p,passed) := by
  have fits := laid_fits laid path
  have placed : placeAt levels path i = some p := placeAt_some.mpr ⟨label,here⟩
  have inside := placeAt_inside placed
  have walks := laid_walks laid found path i misses (by omega) (h.length - i - 1 + 1)
  rw [show h.length - i - 1 + 1 + i = h.length by omega,placed] at walks
  refine ⟨before (placeAt levels) path i,walks.trans ?_⟩
  simp only [walkOn,laid.cells _ _ _ _ here,Option.bind_eq_bind,Option.bind_some,nodeAt,hit,if_true]

end

-- A level with one more record, or with another label.
def putLast (levels : Levels α) (path : List Nat) (p : Nat) (label : α) : Levels α :=
  Function.update levels path (levels path ++ [(p,label)])

def relabel (levels : Levels α) (path : List Nat) (i p : Nat) (label : α) : Levels α :=
  Function.update levels path ((levels path).set i (p,label))

@[simp] theorem putLast_same (levels : Levels α) (path : List Nat) (p : Nat) (label : α) :
    putLast levels path p label path = levels path ++ [(p,label)] := by simp [putLast]

theorem putLast_other (levels : Levels α) (p : Nat) (label : α) (other : path' ≠ path) :
    putLast levels path p label path' = levels path' := by simp [putLast,other]

@[simp] theorem relabel_same (levels : Levels α) (path : List Nat) (i p : Nat) (label : α) :
    relabel levels path i p label path = (levels path).set i (p,label) := by simp [relabel]

theorem relabel_other (levels : Levels α) (i p : Nat) (label : α) (other : path' ≠ path) :
    relabel levels path i p label path' = levels path' := by simp [relabel,other]

theorem placeAt_relabel {levels : Levels α} (here : placeAt levels path i = some p) (label : α) :
    placeAt (relabel levels path i p label) = placeAt levels := by
  funext path' i'
  by_cases same : path' = path
  · subst same
    by_cases same : i' = i
    · subst same
      have inside := placeAt_inside here
      simp [placeAt,inside] at here ⊢
      exact here.symm
    · simp [placeAt,List.getElem?_set_ne (Ne.symm same)]
  · simp [placeAt,relabel_other _ _ _ _ same]

theorem laid_relabel {h : Heap α} {levels : Levels α} (laid : Laid h levels) (here : placeAt levels path i = some p)
    (live : cell h p = some n) (label : α) : Laid (store h p { n with label := label }) (relabel levels path i p label) := by
  have places := placeAt_relabel here label
  refine ⟨?_,?_,?_⟩
  · intro path' i' p' label' inRow
    have here' : placeAt levels path' i' = some p' := by
      rw [← places]
      exact placeAt_some.mpr ⟨label',inRow⟩
    rw [places]
    by_cases same : p' = p
    · subst same
      obtain ⟨rfl,rfl⟩ := laid.once _ _ _ _ _ here here'
      obtain ⟨old,oldRow⟩ := placeAt_some.mp here
      have inside := placeAt_inside here
      obtain rfl : label = label' := by simpa [inside] using inRow
      rw [laid.cells _ _ _ _ oldRow] at live
      cases live
      exact cell_store (laid_live laid here) _
    · rw [cell_store_other _ same]
      refine laid.cells path' i' p' label' ?_
      by_cases level : path' = path
      · subst level
        have apart : i ≠ i' := by
          rintro rfl
          exact same (Option.some.inj (here'.symm.trans here))
        simpa [List.getElem?_set_ne apart] using inRow
      · rwa [relabel_other _ _ _ _ level] at inRow
  · rw [places]
    exact laid.once
  · intro j above some'
    have length : ∀ other, (relabel levels path i p label other).length = (levels other).length := by
      intro other
      by_cases same : other = path
      · subst same
        simp
      · rw [relabel_other _ _ _ _ same]
    rw [length]
    refine laid.owned j above ?_
    rwa [← List.length_pos_iff_ne_nil,length,List.length_pos_iff_ne_nil] at some'

theorem placeAt_putLast (levels : Levels α) (path : List Nat) (p : Nat) (label : α) (path' : List Nat) (i' : Nat) :
    placeAt (putLast levels path p label) path' i' =
      if path' = path ∧ i' = (levels path).length then some p else placeAt levels path' i' := by
  by_cases same : path' = path
  · subst same
    rcases Nat.lt_trichotomy i' (levels path').length with inside | rfl | outside
    · have apart : i' ≠ (levels path').length := by omega
      simp [placeAt,List.getElem?_append_left inside,apart]
    · simp [placeAt]
    · have apart : i' ≠ (levels path').length := by omega
      rw [if_neg (fun both => apart both.2),placeAt_none.mpr (by rw [putLast_same]; simp; omega),placeAt_none.mpr (by omega)]
  · simp [placeAt,putLast_other _ _ _ same,same]

theorem placeAt_old {levels : Levels α} (here : placeAt levels path' i' = some q) (path : List Nat) (p : Nat) (label : α) :
    placeAt (putLast levels path p label) path' i' = some q := by
  have inside := placeAt_inside here
  rw [placeAt_putLast,if_neg ?_,here]
  rintro ⟨rfl,rfl⟩
  omega

-- A new last record only changes the next link of the one before it, or the child link of its owner.
theorem nodeAt_old {h : Heap α} {levels : Levels α} (laid : Laid h levels) (inRow : (levels path')[i']? = some (q,label'))
    (path : List Nat) (p : Nat) (label : α) : nodeAt (placeAt (putLast levels path p label)) path' i' label' =
      { nodeAt (placeAt levels) path' i' label' with
        next := if path' = path ∧ i' + 1 = (levels path).length then some p else placeAt levels path' (i' + 1)
        child := if i' :: path' = path ∧ 0 = (levels path).length then some p else placeAt levels (i' :: path') 0 } := by
  have here : placeAt levels path' i' = some q := placeAt_some.mpr ⟨label',inRow⟩
  have inside := placeAt_inside here
  have kept : ∀ path' i', i' < (levels path').length →
      placeAt (putLast levels path p label) path' i' = placeAt levels path' i' := by
    intro path' i' inside
    obtain ⟨q,here⟩ := placeAt_exists levels path' inside
    rw [placeAt_old here,here]
  simp only [nodeAt,placeAt_putLast levels path p label path' (i' + 1),placeAt_putLast levels path p label (i' :: path') 0,
    Node.mk.injEq,true_and,and_true]
  refine ⟨?_,?_⟩
  · cases i' with
    | zero => rfl
    | succ j => exact kept path' j (by omega)
  · cases i' with
    | succ j => rfl
    | zero =>
        cases path' with
        | nil => rfl
        | cons j above => exact kept above j (laid.owned j above (List.ne_nil_of_length_pos inside))

-- Nothing is below a record that is not there yet.
theorem laid_below {h : Heap α} {levels : Levels α} (laid : Laid h levels) (path : List Nat) :
    levels ((levels path).length :: path) = [] := by
  by_contra some'
  exact Nat.lt_irrefl _ (laid.owned _ _ some')

theorem laid_putLast {h later : Heap α} {levels : Levels α} (laid : Laid h levels)
    (room : ∀ i above, path = i :: above → i < (levels above).length)
    (new : cell later h.length = some (nodeAt (placeAt (putLast levels path h.length label)) path (levels path).length label))
    (old : ∀ path' i' q label', (levels path')[i']? = some (q,label') →
      cell later q = some (nodeAt (placeAt (putLast levels path h.length label)) path' i' label')) :
    Laid later (putLast levels path h.length label) := by
  have cases' : ∀ path' i' q label', (putLast levels path h.length label path')[i']? = some (q,label') →
      path' = path ∧ i' = (levels path).length ∧ q = h.length ∧ label' = label ∨ (levels path')[i']? = some (q,label') := by
    intro path' i' q label' inRow
    by_cases same : path' = path
    · subst same
      rw [putLast_same,List.getElem?_append] at inRow
      split at inRow
      · exact .inr inRow
      · rename_i outside
        rw [List.getElem?_singleton] at inRow
        split at inRow
        · simp only [Option.some.injEq,Prod.mk.injEq] at inRow
          exact .inl ⟨rfl,by omega,inRow.1.symm,inRow.2.symm⟩
        · cases inRow
    · rw [putLast_other _ _ _ same] at inRow
      exact .inr inRow
  have known : ∀ path' i' q, placeAt (putLast levels path h.length label) path' i' = some q →
      path' = path ∧ i' = (levels path).length ∧ q = h.length ∨ placeAt levels path' i' = some q := by
    intro path' i' q here
    obtain ⟨label',inRow⟩ := placeAt_some.mp here
    rcases cases' path' i' q label' inRow with ⟨level,last,fresh,-⟩ | inRow
    · exact .inl ⟨level,last,fresh⟩
    · exact .inr (placeAt_some.mpr ⟨label',inRow⟩)
  refine ⟨?_,?_,?_⟩
  · intro path' i' q label' inRow
    rcases cases' path' i' q label' inRow with ⟨rfl,rfl,rfl,rfl⟩ | inRow
    · exact new
    · exact old path' i' q label' inRow
  · intro path1 i1 path2 i2 q first second
    rcases known _ _ _ first with ⟨rfl,rfl,rfl⟩ | old1
    · rcases known _ _ _ second with ⟨rfl,rfl,-⟩ | old2
      · exact ⟨rfl,rfl⟩
      · exact absurd (laid_live laid old2) (Nat.lt_irrefl _)
    · rcases known _ _ _ second with ⟨rfl,rfl,rfl⟩ | old2
      · exact absurd (laid_live laid old1) (Nat.lt_irrefl _)
      · exact laid.once _ _ _ _ _ old1 old2
  · intro i above some'
    have grows : (levels above).length ≤ (putLast levels path h.length label above).length := by
      by_cases same : above = path
      · subst same
        simp
      · rw [putLast_other _ _ _ same]
    by_cases same : i :: above = path
    · exact Nat.lt_of_lt_of_le (room i above same.symm) grows
    · rw [putLast_other _ _ _ same] at some'
      exact Nat.lt_of_lt_of_le (laid.owned i above some') grows

-- The two ways a new record gets in: as the first child of a leaf, and after the last of a level.
theorem laid_addChild {h : Heap α} {levels : Levels α} (laid : Laid h levels) (here : placeAt levels path i = some p)
    (live : cell h p = some n) (leaf : levels (i :: path) = []) (label : α) :
    Laid (store (alloc h ⟨label,none,none,some p,none⟩) p { n with child := some h.length })
      (putLast levels (i :: path) h.length label) := by
  have bound := laid_live laid here
  refine laid_putLast laid ?_ ?_ ?_
  · rintro j above ⟨rfl,rfl⟩
    exact placeAt_inside here
  · have below := laid_below laid (i :: path)
    rw [leaf] at below
    rw [cell_store_other _ (by omega),cell_alloc,leaf]
    simp only [List.length_nil] at below ⊢
    simp [nodeAt,before,placeAt_putLast _ (i :: path),leaf,placeAt_none.mpr,below,here]
  · intro path' i' q label' inRow
    have placed : placeAt levels path' i' = some q := placeAt_some.mpr ⟨label',inRow⟩
    have inside := placeAt_inside placed
    have apart : path' ≠ i :: path := by
      rintro rfl
      rw [leaf] at inside
      cases inside
    rw [nodeAt_old laid inRow,leaf]
    by_cases same : q = p
    · subst same
      obtain ⟨rfl,rfl⟩ := laid.once _ _ _ _ _ here placed
      rw [laid.cells _ _ _ _ inRow] at live
      cases live
      rw [cell_store (by simp; omega)]
      simp [nodeAt]
    · have child : ¬(i' :: path' = i :: path ∧ 0 = ([] : List (Nat × α)).length) := by
        rintro ⟨level,-⟩
        cases level
        exact same (Option.some.inj (placed.symm.trans here))
      rw [cell_store_other _ same,cell_alloc_old _ (laid_live laid placed),laid.cells _ _ _ _ inRow,if_neg child,
        if_neg (fun level => apart level.1)]
      rfl

theorem laid_addSibling {h : Heap α} {levels : Levels α} (laid : Laid h levels) (here : placeAt levels path i = some p)
    (last : i + 1 = (levels path).length) (live : cell h p = some n) (label : α) :
    Laid (store (alloc h ⟨label,some p,none,none,none⟩) p { n with next := some h.length })
      (putLast levels path h.length label) := by
  have bound := laid_live laid here
  refine laid_putLast laid ?_ ?_ ?_
  · rintro j above rfl
    refine laid.owned j above ?_
    exact List.ne_nil_of_length_pos (by omega)
  · have below := laid_below laid path
    have back := placeAt_old here path h.length label
    rw [cell_store_other _ (by omega),cell_alloc,← last]
    rw [← last] at below
    have deeper : placeAt (putLast levels path h.length label) ((i + 1) :: path) 0 = none := by
      rw [placeAt_putLast,if_neg (by simp),placeAt,below]
      rfl
    have onward : placeAt (putLast levels path h.length label) path (i + 1 + 1) = none := by
      rw [placeAt_putLast,if_neg (by omega),placeAt_none.mpr (by omega)]
    simp [nodeAt,before,back,deeper,onward]
  · intro path' i' q label' inRow
    have placed : placeAt levels path' i' = some q := placeAt_some.mpr ⟨label',inRow⟩
    have child : ¬(i' :: path' = path ∧ 0 = (levels path).length) := by omega
    rw [nodeAt_old laid inRow,if_neg child]
    by_cases same : q = p
    · subst same
      obtain ⟨rfl,rfl⟩ := laid.once _ _ _ _ _ here placed
      rw [laid.cells _ _ _ _ inRow] at live
      cases live
      rw [cell_store (by simp; omega),if_pos ⟨rfl,last⟩]
      rfl
    · have next : ¬(path' = path ∧ i' + 1 = (levels path).length) := by
        rintro ⟨rfl,length⟩
        obtain rfl : i' = i := by omega
        exact same (Option.some.inj (placed.symm.trans here))
      rw [cell_store_other _ same,cell_alloc_old _ (laid_live laid placed),laid.cells _ _ _ _ inRow,if_neg next]
      rfl

-- One record in a heap.
def single (p : Nat) (label : α) : Levels α := fun path => if path = [] then [(p,label)] else []

theorem laid_single (h : Heap α) (label : α) : Laid (alloc h ⟨label,none,none,none,none⟩) (single h.length label) := by
  have only : ∀ path i p label', (single h.length label path)[i]? = some (p,label') →
      path = [] ∧ i = 0 ∧ p = h.length ∧ label' = label := by
    intro path i p label' inRow
    unfold single at inRow
    split at inRow
    · rename_i top
      rw [List.getElem?_singleton] at inRow
      split at inRow
      · simp only [Option.some.injEq,Prod.mk.injEq] at inRow
        rename_i first
        exact ⟨top,first,inRow.1.symm,inRow.2.symm⟩
      · cases inRow
    · cases inRow
  refine ⟨?_,?_,?_⟩
  · intro path i p label' inRow
    obtain ⟨rfl,rfl,rfl,rfl⟩ := only _ _ _ _ inRow
    rw [cell_alloc]
    simp [nodeAt,before,placeAt,single]
  · intro path i path' i' p first second
    obtain ⟨_,first⟩ := placeAt_some.mp first
    obtain ⟨_,second⟩ := placeAt_some.mp second
    obtain ⟨rfl,rfl,-⟩ := only _ _ _ _ first
    obtain ⟨rfl,rfl,-⟩ := only _ _ _ _ second
    exact ⟨rfl,rfl⟩
  · intro i path some'
    exact absurd (if_neg (by simp)) some'

-- The records that the links reach from a root, and those that next links reach from a record.
inductive Within (h : Heap α) (root : Nat) : Nat → Prop where
  | root : Within h root root
  | next : Within h root p → cell h p = some n → n.next = some q → Within h root q
  | child : Within h root p → cell h p = some n → n.child = some q → Within h root q

inductive Onward (h : Heap α) : Nat → Nat → Prop where
  | one : cell h p = some n → n.next = some q → Onward h p q
  | more : cell h p = some n → n.next = some q → Onward h q r → Onward h p r

section
variable {h : Heap α} {levels : Levels α} (laid : Laid h levels)
include laid

theorem laid_cell (here : placeAt levels path i = some p) (live : cell h p = some n) :
    (levels path)[i]? = some (p,n.label) ∧ n = nodeAt (placeAt levels) path i n.label := by
  obtain ⟨label,inRow⟩ := placeAt_some.mp here
  rw [laid.cells _ _ _ _ inRow] at live
  cases live
  exact ⟨inRow,rfl⟩

theorem within_placed (start : placeAt levels [] 0 = some root) (within : Within h root p) :
    ∃ path i, placeAt levels path i = some p := by
  induction within with
  | root => exact ⟨[],0,start⟩
  | next _ live next ih =>
      obtain ⟨path,i,here⟩ := ih
      rw [(laid_cell laid here live).2] at next
      exact ⟨path,i+1,next⟩
  | child _ live child ih =>
      obtain ⟨path,i,here⟩ := ih
      rw [(laid_cell laid here live).2] at child
      exact ⟨i::path,0,child⟩

theorem placed_within (start : placeAt levels [] 0 = some root) (here : placeAt levels path i = some p) : Within h root p := by
  induction path generalizing i p with
  | nil =>
      induction i generalizing p with
      | zero =>
          cases start.symm.trans here
          exact .root
      | succ i ih =>
          obtain ⟨q,back⟩ := placeAt_exists levels [] (Nat.lt_of_succ_lt (placeAt_inside here))
          obtain ⟨label,inRow⟩ := placeAt_some.mp back
          exact .next (ih back) (laid.cells _ _ _ _ inRow) here
  | cons j above ihAbove =>
      induction i generalizing p with
      | zero =>
          have inside := placeAt_inside here
          obtain ⟨q,owner⟩ := placeAt_exists levels above (laid.owned j above (List.ne_nil_of_length_pos inside))
          obtain ⟨label,inRow⟩ := placeAt_some.mp owner
          exact .child (ihAbove owner) (laid.cells _ _ _ _ inRow) here
      | succ i ih =>
          obtain ⟨q,back⟩ := placeAt_exists levels (j :: above) (Nat.lt_of_succ_lt (placeAt_inside here))
          obtain ⟨label,inRow⟩ := placeAt_some.mp back
          exact .next (ih back) (laid.cells _ _ _ _ inRow) here

theorem onward_placed (here : placeAt levels path i = some p) (onward : Onward h p q) :
    ∃ j, i < j ∧ placeAt levels path j = some q := by
  induction onward generalizing i with
  | one live next =>
      rw [(laid_cell laid here live).2] at next
      exact ⟨i+1,by omega,next⟩
  | more live next _ ih =>
      rw [(laid_cell laid here live).2] at next
      obtain ⟨j,later,there⟩ := ih next
      exact ⟨j,by omega,there⟩

end

end
end Linked
