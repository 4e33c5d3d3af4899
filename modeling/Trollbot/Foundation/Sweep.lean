import Mathlib.Data.List.Range
import Mathlib.Data.List.Nodup

-- Steps that may fault, and loops over the places of a list. The first fault ends a loop.
namespace Sweep

section
variable {ε β γ : Type}

def orFault (fault : ε) (x : Option β) : Except ε β := x.elim (.error fault) .ok

@[simp] theorem orFault_some (fault : ε) (x : β) : orFault fault (some x) = .ok x := rfl
@[simp] theorem orFault_none (fault : ε) : orFault fault (none : Option β) = .error fault := rfl
@[simp] theorem ok_bind (x : β) (f : β → Except ε γ) : (Except.ok x >>= f) = f x := rfl
@[simp] theorem error_bind (fault : ε) (f : β → Except ε γ) : ((Except.error fault : Except ε β) >>= f) = .error fault := rfl
end

section
variable {σ ε : Type}

def sweep (visit : σ → Nat → Except ε σ) : σ → List Nat → Except ε σ
  | st,[] => .ok st
  | st,place :: rest => visit st place >>= fun next => sweep visit next rest

variable (visit : σ → Nat → Except ε σ) (Invariant : σ → Prop) (fine : σ → Nat → Prop)

-- Where every place is fine before the loop and a visit leaves the others as they are, only an
-- excused fault ends the loop.
theorem sweep_runs (excused : ε → Prop) (places : List Nat)
    (visits : ∀ st, ∀ place ∈ places, Invariant st → fine st place →
      (∃ next, visit st place = .ok next ∧ Invariant next ∧ ∀ other, other ≠ place → fine st other → fine next other) ∨
      ∃ fault, visit st place = .error fault ∧ excused fault)
    (nodup : places.Nodup) (start : Invariant st) (all : ∀ place ∈ places, fine st place) :
    (∃ next, sweep visit st places = .ok next ∧ Invariant next) ∨ ∃ fault, sweep visit st places = .error fault ∧ excused fault := by
  induction places generalizing st with
  | nil => exact .inl ⟨st,rfl,start⟩
  | cons place rest ih =>
      obtain ⟨unseen,others⟩ := List.nodup_cons.mp nodup
      rcases visits st place (by simp) start (all place (by simp)) with ⟨next,done,holds,kept⟩ | ⟨fault,stops,excuse⟩
      · have later := ih (fun st other member => visits st other (by simp [member])) others holds
          (fun other member => kept other (ne_of_mem_of_not_mem member unseen) (all other (by simp [member])))
        simpa [sweep,done] using later
      · exact .inr ⟨fault,by simp [sweep,stops],excuse⟩

-- Where a visit faults exactly at a place that is not fine, the loop ends exactly when all are.
theorem sweep_exact (bad : ε → Prop) (places : List Nat)
    (visits : ∀ st, ∀ place ∈ places, Invariant st → fine st place →
      ∃ next, visit st place = .ok next ∧ Invariant next ∧ ∀ other, other ≠ place → (fine next other ↔ fine st other))
    (stops : ∀ st, ∀ place ∈ places, Invariant st → ¬fine st place → ∃ fault, visit st place = .error fault ∧ bad fault)
    (nodup : places.Nodup) (start : Invariant st) :
    ((∀ place ∈ places, fine st place) ∧ ∃ next, sweep visit st places = .ok next ∧ Invariant next) ∨
    (¬(∀ place ∈ places, fine st place) ∧ ∃ fault, sweep visit st places = .error fault ∧ bad fault) := by
  induction places generalizing st with
  | nil => exact .inl ⟨by simp,st,rfl,start⟩
  | cons place rest ih =>
      obtain ⟨unseen,others⟩ := List.nodup_cons.mp nodup
      by_cases here : fine st place
      · obtain ⟨next,done,holds,kept⟩ := visits st place (by simp) start here
        have same : (∀ other ∈ rest, fine next other) ↔ ∀ other ∈ place :: rest, fine st other := by
          rw [List.forall_mem_cons]
          refine ⟨fun all => ⟨here,fun other inside => ?_⟩,fun all other inside => ?_⟩
          · exact (kept other (ne_of_mem_of_not_mem inside unseen)).mp (all other inside)
          · exact (kept other (ne_of_mem_of_not_mem inside unseen)).mpr (all.2 other inside)
        have later := ih (fun st other member => visits st other (by simp [member]))
          (fun st other member => stops st other (by simp [member])) others holds
        rw [same] at later
        simpa [sweep,done] using later
      · obtain ⟨fault,ends,worse⟩ := stops st place (by simp) start here
        exact .inr ⟨fun all => here (all place (by simp)),fault,by simp [sweep,ends],worse⟩

end

end Sweep
