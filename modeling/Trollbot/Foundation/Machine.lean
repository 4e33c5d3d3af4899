-- Loops as machines. A step goes on, ends with a result, or faults.
namespace Machine
variable {σ ρ : Type}

inductive Outcome (σ ρ : Type) where
  | next (st : σ)
  | done (result : ρ)
  | fault
deriving DecidableEq

-- At most `fuel` steps; a machine that still runs is left at its state.
@[simp] def runFor (step : σ → Outcome σ ρ) : Nat → σ → Outcome σ ρ
  | 0,st => .next st
  | fuel+1,st =>
    match step st with
    | .next later => runFor step fuel later
    | .done result => .done result
    | .fault => .fault

inductive Reaches (step : σ → Outcome σ ρ) : σ → σ → Prop where
  | refl : Reaches step st st
  | head : step st = .next later → Reaches step later last → Reaches step st last

-- With enough fuel the machine ends with the result.
def Ends (step : σ → Outcome σ ρ) (st : σ) (result : ρ) : Prop :=
  ∃ enough, ∀ fuel, enough ≤ fuel → runFor step fuel st = .done result

-- The second goes on as the first does, where the first does not fault.
inductive Together {τ : Type} (Related : σ → τ → Prop) : Outcome σ ρ → Outcome τ ρ → Prop where
  | next : Related st st' → Together Related (.next st) (.next st')
  | done : Together Related (.done result) (.done result)
  | fault : Together Related .fault outcome

section
variable {step : σ → Outcome σ ρ}

theorem Reaches.one (taken : step st = .next later) : Reaches step st later := .head taken .refl

theorem Reaches.trans (first : Reaches step st middle) (second : Reaches step middle last) : Reaches step st last := by
  induction first with
  | refl => exact second
  | head taken _ ih => exact .head taken (ih second)

theorem run_reached (ran : runFor step n st = .next later) : Reaches step st later := by
  induction n generalizing st with
  | zero =>
      cases ran
      exact .refl
  | succ n ih =>
      rw [runFor] at ran
      split at ran
      · rename_i taken
        exact .head taken (ih ran)
      · cases ran
      · cases ran

theorem ends_now (taken : step st = .done result) : Ends step st result := by
  refine ⟨1,?_⟩
  intro fuel enough
  cases fuel with
  | zero => omega
  | succ fuel => simp [runFor,taken]

theorem ends_later (taken : step st = .next later) (ends : Ends step later result) : Ends step st result := by
  obtain ⟨enough,rest⟩ := ends
  refine ⟨enough+1,?_⟩
  intro fuel more
  cases fuel with
  | zero => omega
  | succ fuel =>
      simp only [runFor,taken]
      exact rest fuel (by omega)

theorem fault_stays (faults : runFor step n st = .fault) : ¬Ends step st result := by
  have later : ∀ (n m : Nat) (st : σ), runFor step n st = .fault → runFor step (n + m) st = .fault := by
    intro n m
    induction n with
    | zero =>
        intro st faults
        cases faults
    | succ n ih =>
        intro st faults
        have regroup : n + 1 + m = (n + m) + 1 := by omega
        rw [regroup]
        unfold runFor at faults ⊢
        split at faults
        · exact ih _ faults
        · cases faults
        · rfl
  rintro ⟨enough,ends⟩
  have bad := later n enough st faults
  rw [ends (n + enough) (by omega)] at bad
  cases bad

theorem done_ends (runs : runFor step n st = .done result) : Ends step st result := by
  induction n generalizing st with
  | zero => cases runs
  | succ n ih =>
      unfold runFor at runs
      split at runs
      · rename_i taken
        exact ends_later taken (ih runs)
      · rename_i taken
        cases runs
        exact ends_now taken
      · cases runs

-- A machine whose steps shrink a measure ends, with that much fuel.
theorem ends_within (Invariant : σ → Prop) (measure : σ → Nat) (shrinks : ∀ st, Invariant st → (∃ result, step st = .done result) ∨
    ∃ later, step st = .next later ∧ Invariant later ∧ measure later < measure st) (start : Invariant st) :
    ∃ result, ∀ fuel, measure st < fuel → runFor step fuel st = .done result := by
  generalize bound : measure st = n
  induction n using Nat.strongRecOn generalizing st with
  | ind n ih =>
      rcases shrinks st start with ⟨result,taken⟩ | ⟨later,taken,kept,less⟩
      · refine ⟨result,?_⟩
        intro fuel enough
        cases fuel with
        | zero => omega
        | succ fuel => simp [runFor,taken]
      · obtain ⟨result,runs⟩ := ih (measure later) (by omega) kept rfl
        refine ⟨result,?_⟩
        intro fuel enough
        cases fuel with
        | zero => omega
        | succ fuel =>
            simp only [runFor,taken]
            exact runs fuel (by omega)

theorem ends_same (first : Ends step st result) (second : Ends step st other) : other = result := by
  obtain ⟨enough,ends⟩ := first
  obtain ⟨enough',ends'⟩ := second
  have both := ends' (enough + enough') (by omega)
  rw [ends (enough + enough') (by omega)] at both
  cases both
  rfl

theorem Reaches.ends (reaches : Reaches step st last) (ends : Ends step last result) : Ends step st result := by
  induction reaches with
  | refl => exact ends
  | head taken _ ih => exact ends_later taken (ih ends)

theorem ends_step (taken : step st = .next later) (ends : Ends step st result) : Ends step later result := by
  obtain ⟨enough,rest⟩ := ends
  refine ⟨enough,?_⟩
  intro fuel more
  have run := rest (fuel + 1) (by omega)
  rwa [runFor,taken] at run

theorem Reaches.ends_after (reaches : Reaches step st middle) (ends : Ends step st result) : Ends step middle result := by
  induction reaches with
  | refl => exact ends
  | head taken _ ih => exact ih (ends_step taken ends)

-- What every step keeps, the end shows.
theorem ends_keeps (Invariant : σ → Prop) (shows : ρ → Prop)
    (keeps : ∀ st later, Invariant st → step st = .next later → Invariant later)
    (gives : ∀ st result, Invariant st → step st = .done result → shows result)
    (start : Invariant st) (ends : Ends step st result) : shows result := by
  obtain ⟨enough,ends⟩ := ends
  have run := ends enough (Nat.le_refl _)
  clear ends
  induction enough generalizing st with
  | zero => cases run
  | succ fuel ih =>
      cases taken : step st with
      | next later =>
          rw [runFor,taken] at run
          exact ih (keeps st later start taken) run
      | done other =>
          rw [runFor,taken] at run
          cases run
          exact gives st _ start taken
      | fault =>
          rw [runFor,taken] at run
          cases run

theorem ends_reaches (ends : Ends step st result) : ∃ last, Reaches step st last ∧ step last = .done result := by
  obtain ⟨enough,ends⟩ := ends
  have run := ends enough (Nat.le_refl _)
  clear ends
  induction enough generalizing st with
  | zero => cases run
  | succ fuel ih =>
      cases taken : step st with
      | next later =>
          rw [runFor,taken] at run
          obtain ⟨last,reached,done⟩ := ih run
          exact ⟨last,.head taken reached,done⟩
      | done other =>
          rw [runFor,taken] at run
          cases run
          exact ⟨st,.refl,taken⟩
      | fault =>
          rw [runFor,taken] at run
          cases run

-- Two machines that step together end together.
theorem ends_together {τ : Type} {other : τ → Outcome τ ρ} {st' : τ} (Related : σ → τ → Prop)
    (steps : ∀ st st', Related st st' → Together Related (step st) (other st')) (start : Related st st')
    (ends : Ends step st result) : Ends other st' result := by
  obtain ⟨enough,ends⟩ := ends
  have run := ends enough (Nat.le_refl _)
  clear ends
  induction enough generalizing st st' with
  | zero => cases run
  | succ fuel ih =>
      have both := steps st st' start
      unfold runFor at run
      generalize step st = outcome at run both
      generalize taken : other st' = outcome' at both
      cases both with
      | next related => exact ends_later taken (ih related run)
      | done =>
          cases run
          exact ends_now taken
      | fault => cases run

end

end Machine
