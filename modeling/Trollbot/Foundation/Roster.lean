import Mathlib.Data.Set.Insert
import Mathlib.Data.List.Nodup

-- A list that is kept up with a set, and a list of records with a key of which the first counts.
namespace Roster

section
variable {α : Type} {lower upper : Set α} {list : List α}

-- No repetition, everything that has to be there, and nothing that must not.
structure Between (lower upper : Set α) (list : List α) : Prop where
  once : list.Nodup
  listed : ∀ x ∈ lower, x ∈ list
  sound : ∀ x ∈ list, x ∈ upper

theorem between_exact (between : Between lower upper list) (complete : upper ⊆ lower) (x : α) : x ∈ list ↔ x ∈ upper :=
  ⟨between.sound x,fun member => between.listed x (complete member)⟩

theorem between_mono {lower' upper' : Set α} (between : Between lower upper list) (smaller : lower' ⊆ lower)
    (larger : upper ⊆ upper') : Between lower' upper' list :=
  ⟨between.once,fun x member => between.listed x (smaller member),fun x member => larger (between.sound x member)⟩

theorem between_erase (between : Between lower upper list) (here : list[i]? = some x) :
    Between (lower \ {x}) (upper \ {x}) (list.eraseIdx i) := by
  refine ⟨between.once.sublist (List.eraseIdx_sublist list i),?_,?_⟩
  · rintro y ⟨member,differs⟩
    obtain ⟨j,place⟩ := List.mem_iff_getElem?.mp (between.listed y member)
    refine List.mem_eraseIdx_iff_getElem?.mpr ⟨j,?_,place⟩
    rintro rfl
    exact differs (Option.some.inj (place.symm.trans here))
  · intro y member
    obtain ⟨j,other,place⟩ := List.mem_eraseIdx_iff_getElem?.mp member
    refine ⟨between.sound y (List.mem_of_getElem? place),?_⟩
    rintro rfl
    have early := (List.getElem?_eq_some_iff.mp place).1
    exact other ((List.getElem?_inj early between.once).mp (place.trans here.symm))

theorem between_absent (between : Between lower upper list) (absent : x ∉ list) :
    Between (lower \ {x}) (upper \ {x}) list := by
  refine ⟨between.once,fun y member => between.listed y member.1,?_⟩
  intro y member
  refine ⟨between.sound y member,?_⟩
  rintro rfl
  exact absent member

section
variable [DecidableEq α]

def enter (list : List α) (x : α) : List α := if x ∈ list then list else list ++ [x]

def renamed (old new x : α) : α := if x = old then new else x

theorem mem_enter (x y : α) : x ∈ enter list y ↔ x = y ∨ x ∈ list := by
  unfold enter
  split
  · rename_i here
    refine ⟨.inr,?_⟩
    rintro (rfl | member)
    · exact here
    · exact member
  · simp only [List.mem_append,List.mem_singleton]
    exact or_comm

theorem between_enter (between : Between lower upper list) (x : α) :
    Between (insert x lower) (insert x upper) (enter list x) := by
  refine ⟨?_,?_,?_⟩
  · unfold enter
    split
    · exact between.once
    · rename_i absent
      refine List.nodup_append.mpr ⟨between.once,by simp,?_⟩
      rintro y member z single rfl
      obtain rfl := List.mem_singleton.mp single
      exact absent member
  · rintro y (rfl | member)
    · exact (mem_enter y y).mpr (.inl rfl)
    · exact (mem_enter y x).mpr (.inr (between.listed y member))
  · intro y member
    exact ((mem_enter y x).mp member).imp_right (between.sound y)

theorem between_all (between : Between lower upper list) (entries : List α) (inside : ∀ x ∈ entries, x ∈ upper) :
    Between (lower ∪ {x | x ∈ entries}) upper (entries.foldl enter list) := by
  induction entries generalizing lower list with
  | nil => exact between_mono between (by simp) (Set.Subset.refl _)
  | cons x rest ih =>
      have first : Between (insert x lower) upper (enter list x) := by
        refine between_mono (between_enter between x) (Set.Subset.refl _) ?_
        exact Set.insert_subset (inside x (by simp)) (Set.Subset.refl _)
      refine between_mono (ih first (fun y member => inside y (by simp [member]))) ?_ (Set.Subset.refl _)
      rintro y (member | member)
      · exact .inl (.inr member)
      · rcases List.mem_cons.mp member with rfl | later
        · exact .inl (.inl rfl)
        · exact .inr later

theorem renamed_other (old new : α) (differs : x ≠ old) : renamed old new x = x := if_neg differs

-- The new name is not in use, or it is the old one.
theorem between_rename (between : Between lower upper list) (here : list[i]? = some old) (free : new ∈ upper → new = old) :
    Between (renamed old new '' lower) (renamed old new '' upper) (list.set i new) := by
  have early := (List.getElem?_eq_some_iff.mp here).1
  have others : ∀ y ∈ list, y ≠ old → y ∈ list.set i new := by
    intro y member differs
    obtain ⟨j,place⟩ := List.mem_iff_getElem?.mp member
    refine List.mem_iff_getElem?.mpr ⟨j,?_⟩
    rw [List.getElem?_set_ne ?_]
    · exact place
    rintro rfl
    exact differs (Option.some.inj (place.symm.trans here))
  refine ⟨?_,?_,?_⟩
  · by_cases same : new = old
    · subst same
      obtain ⟨_,value⟩ := List.getElem?_eq_some_iff.mp here
      have unchanged : list.set i new = list := by rw [← value,List.set_getElem_self]
      rw [unchanged]
      exact between.once
    · exact between.once.set (fun member => same (free (between.sound new member)))
  · rintro y ⟨z,member,rfl⟩
    by_cases same : z = old
    · subst same
      simp only [renamed,if_true]
      exact List.mem_set early new
    · rw [renamed_other old new same]
      exact others z (between.listed z member) same
  · intro y member
    obtain ⟨j,place⟩ := List.mem_iff_getElem?.mp member
    by_cases moved : j = i
    · subst moved
      rw [List.getElem?_set_self early] at place
      cases place
      exact ⟨old,between.sound old (List.mem_of_getElem? here),if_pos rfl⟩
    · rw [List.getElem?_set_ne (Ne.symm moved)] at place
      have differs : y ≠ old := by
        rintro rfl
        have small := (List.getElem?_eq_some_iff.mp place).1
        exact moved ((List.getElem?_inj small between.once).mp (place.trans here.symm))
      exact ⟨y,between.sound y (List.mem_of_getElem? place),renamed_other old new differs⟩

theorem between_unnamed (between : Between lower upper list) (absent : old ∉ list) (new : α) :
    Between (renamed old new '' lower) (renamed old new '' upper) list := by
  refine ⟨between.once,?_,?_⟩
  · rintro y ⟨z,member,rfl⟩
    have listed := between.listed z member
    rw [renamed_other old new (fun same => absent (same ▸ listed))]
    exact listed
  · intro y member
    exact ⟨y,between.sound y member,renamed_other old new (fun same => absent (same ▸ member))⟩

end
end

section
variable {α κ : Type} [DecidableEq κ] (key : α → κ)

def first (k : κ) (l : List α) : Option α := l.find? (fun x => key x = k)

-- The first record with the key is changed.
def amend (k : κ) (f : α → α) : List α → List α
  | [] => []
  | x :: rest => if key x = k then f x :: rest else x :: amend k f rest

theorem mem_amend (member : x ∈ amend key k f l) : x ∈ l ∨ ∃ y ∈ l, key y = k ∧ x = f y := by
  induction l with
  | nil => exact .inl member
  | cons y rest ih =>
      simp only [amend] at member
      split at member
      · rename_i here
        rcases List.mem_cons.mp member with rfl | later
        · exact .inr ⟨y,by simp,here,rfl⟩
        · exact .inl (by simp [later])
      · rcases List.mem_cons.mp member with rfl | later
        · exact .inl (by simp)
        · rcases ih later with old | ⟨z,inside,same,changed⟩
          · exact .inl (by simp [old])
          · exact .inr ⟨z,by simp [inside],same,changed⟩

theorem amend_missing (missing : first key k l = none) (f : α → α) : amend key k f l = l := by
  induction l with
  | nil => rfl
  | cons x rest ih =>
      simp only [first,List.find?_eq_none,List.mem_cons,decide_eq_true_eq] at missing
      have later : first key k rest = none := by
        simp only [first,List.find?_eq_none,decide_eq_true_eq]
        exact fun y member => missing y (.inr member)
      simp [amend,missing x (.inl rfl),ih later]

theorem place_cases (found : (x :: rest).findIdx? (fun x => key x = k) = some place) :
    key x = k ∧ place = 0 ∨ key x ≠ k ∧ ∃ later, rest.findIdx? (fun x => key x = k) = some later ∧ place = later + 1 := by
  rw [List.findIdx?_cons] at found
  by_cases here : key x = k
  · simp only [here,decide_true,if_true,Option.some.injEq] at found
    exact .inl ⟨here,found.symm⟩
  · simp only [here,decide_false,Bool.false_eq_true,if_false,Option.map_eq_some_iff] at found
    obtain ⟨later,behind,rfl⟩ := found
    exact .inr ⟨here,later,behind,rfl⟩

theorem modify_first (found : l.findIdx? (fun x => key x = k) = some place) :
    ∃ x, l[place]? = some x ∧ key x = k ∧ ∀ f : α → α, l.modify place (fun _ => f x) = amend key k f l := by
  induction l generalizing place with
  | nil => cases found
  | cons x rest ih =>
      rcases place_cases key found with ⟨here,rfl⟩ | ⟨here,later,behind,rfl⟩
      · exact ⟨x,rfl,here,fun f => by simp [amend,here]⟩
      · obtain ⟨y,inside,same,changes⟩ := ih behind
        exact ⟨y,by simpa using inside,same,fun f => by simp [amend,here,changes f]⟩

theorem first_place (found : l.findIdx? (fun x => key x = k) = some place) : first key k l = l[place]? := by
  induction l generalizing place with
  | nil => cases found
  | cons x rest ih =>
      rcases place_cases key found with ⟨here,rfl⟩ | ⟨here,later,behind,rfl⟩
      · simp [first,here]
      · simpa [first,here] using ih behind

theorem modify_amend (found : l.findIdx? (fun x => key x = k) = some place) (f : α → α) : l.modify place f = amend key k f l := by
  induction l generalizing place with
  | nil => cases found
  | cons x rest ih =>
      rcases place_cases key found with ⟨here,rfl⟩ | ⟨here,later,behind,rfl⟩
      · simp [amend,here]
      · simp [amend,here,ih behind]

theorem amend_split (some' : first key k l ≠ none) (f : α → α) :
    ∃ pre x post, l = pre ++ x :: post ∧ (∀ y ∈ pre, key y ≠ k) ∧ key x = k ∧ amend key k f l = pre ++ f x :: post := by
  induction l with
  | nil => exact absurd rfl some'
  | cons x rest ih =>
      by_cases here : key x = k
      · exact ⟨[],x,rest,rfl,by simp,here,by simp [amend,here]⟩
      · have later : first key k rest ≠ none := by
          simpa [first,here] using some'
        obtain ⟨pre,y,post,split,before,same,done⟩ := ih later
        refine ⟨x :: pre,y,post,by rw [split]; rfl,?_,same,by simp [amend,here,done]⟩
        intro z member
        rcases List.mem_cons.mp member with rfl | earlier
        · exact here
        · exact before z earlier

theorem first_missing (missing : l.findIdx? (fun x => key x = k) = none) : first key k l = none := by
  rw [List.findIdx?_eq_none_iff] at missing
  simpa [first,List.find?_eq_none] using missing

variable {f : α → α} (keeps : ∀ x, key (f x) = key x)
include keeps

theorem first_map (k : κ) (l : List α) : first key k (l.map f) = (first key k l).map f := by
  unfold first
  rw [List.find?_map]
  congr 2
  funext x
  simp [keeps x]

theorem first_amend (k other : κ) (l : List α) :
    first key other (amend key k f l) = if other = k then (first key k l).map f else first key other l := by
  induction l with
  | nil => simp [amend,first]
  | cons x rest ih =>
      unfold first at ih ⊢
      by_cases here : key x = k
      · by_cases same : other = k
        · simp [amend,here,same,keeps x]
        · have differs : ¬key x = other := fun is => same (is.symm.trans here)
          simp [amend,here,same,keeps x,show ¬k = other from fun is => same is.symm]
      · by_cases is : key x = other
        · have same : ¬other = k := fun same => here (is.trans same)
          simp [amend,is,same]
        · simp [amend,here,is,ih]

end

end Roster
