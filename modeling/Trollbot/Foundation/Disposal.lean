import Trollbot.Foundation.Forest

-- Linked records that are given back one by one.
namespace Linked
variable {α : Type}

-- None when the record was given back before.
def dispose (h : Heap α) (p : Nat) : Option (Heap α) := (cell h p).map (fun _ => h.set p none)

def disposed (h : Heap α) (ps : List Nat) : Heap α := ps.foldl (fun h p => h.set p none) h

-- What is below each sibling and after it comes before it.
def bottomUp : Placed α → List Nat
  | .nil => []
  | .cons (p,_) children rest => bottomUp children ++ (bottomUp rest ++ [p])

-- One record is in the tree under another.
def Under (q p : Nat) : Placed α → Prop
  | .nil => False
  | .cons (owner,_) children rest => (p = owner ∧ q ∈ addresses children) ∨ Under q p children ∨ Under q p rest

theorem dispose_live {h : Heap α} (live : cell h p = some n) : dispose h p = some (disposed h [p]) := by
  simp [dispose,disposed,live]

@[simp] theorem disposed_nil (h : Heap α) : disposed h [] = h := rfl

@[simp] theorem disposed_append (h : Heap α) (ps qs : List Nat) : disposed (disposed h ps) qs = disposed h (ps ++ qs) := by
  simp [disposed]

theorem cell_disposed (h : Heap α) (ps : List Nat) (q : Nat) : cell (disposed h ps) q = if q ∈ ps then none else cell h q := by
  induction ps generalizing h with
  | nil => simp
  | cons p rest ih =>
      have first : cell (h.set p none) q = if q = p then none else cell h q := by
        by_cases same : q = p
        · subst same
          by_cases inside : q < h.length <;> simp [cell,inside]
        · simp [cell,same,List.getElem?_set_ne (Ne.symm same)]
      have step : disposed h (p :: rest) = disposed (h.set p none) rest := rfl
      rw [step,ih,first]
      by_cases later : q ∈ rest <;> by_cases same : q = p <;> simp [later,same]

theorem cell_kept {h : Heap α} (apart : q ∉ ps) : cell (disposed h ps) q = cell h q := by
  rw [cell_disposed,if_neg apart]

theorem bottomUp_perm (a : Placed α) : (bottomUp a).Perm (addresses a) := by
  induction a with
  | nil => exact .nil
  | cons label children rest ihChildren ihRest =>
      obtain ⟨p,label⟩ := label
      rw [addresses_cons]
      have moved : (bottomUp children ++ (bottomUp rest ++ [p])).Perm (p :: (bottomUp children ++ bottomUp rest)) := by
        rw [← List.append_assoc]
        exact List.perm_append_singleton p _
      exact moved.trans ((ihChildren.append ihRest).cons p)

theorem mem_bottomUp {a : Placed α} : q ∈ bottomUp a ↔ q ∈ addresses a := (bottomUp_perm a).mem_iff

theorem bottomUp_nodup {a : Placed α} (separate : Separate a) : (bottomUp a).Nodup := (bottomUp_perm a).nodup_iff.mpr separate

-- Every record comes behind those under it.
theorem under_first {a : Placed α} (under : Under q p a) : [q,p].Sublist (bottomUp a) := by
  induction a with
  | nil => cases under
  | cons label children rest ihChildren ihRest =>
      obtain ⟨owner,label⟩ := label
      rcases under with ⟨rfl,inside⟩ | below | after
      · have first : [q].Sublist (bottomUp children) := List.singleton_sublist.mpr (mem_bottomUp.mpr inside)
        have second : [p].Sublist (bottomUp rest ++ [p]) := List.sublist_append_right _ _
        exact first.append second
      · exact (ihChildren below).trans (List.sublist_append_left _ _)
      · refine (ihRest after).trans ?_
        exact (List.sublist_append_left _ _).trans (List.sublist_append_right _ _)

theorem rep_head {a : Placed α} (rep : Rep h prev parent stop a) (start : head a = some p) :
    ∃ label next child, cell h p = some ⟨label,prev,next,parent,child⟩ := by
  obtain ⟨label,children,rest,rfl⟩ := head_opens start
  exact ⟨_,_,_,rep.1⟩

theorem before_first {a : Placed α} (same : bottomUp a = others ++ [p]) (separate : Separate a) :
    (∀ q ∈ others, q ∈ addresses a) ∧ p ∈ addresses a ∧ p ∉ others := by
  have nodup := bottomUp_nodup separate
  rw [same] at nodup
  refine ⟨?_,mem_bottomUp.mp (by simp [same]),fun member => (List.nodup_append.mp nodup).2.2 p member p (by simp) rfl⟩
  intro q member
  exact mem_bottomUp.mp (by simp [same,member])

end Linked
