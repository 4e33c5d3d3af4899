-- Runs of a partial step function. A step without a result ends the run.
namespace Runs
variable {σ ε : Type}

def run (step : σ → ε → Option σ) : σ → List ε → Option σ
  | st,[] => some st
  | st,event :: rest => (step st event).bind (fun next => run step next rest)

-- `holds` of every step a run takes.
def Along (step : σ → ε → Option σ) (holds : σ → ε → σ → Prop) : σ → List ε → Prop
  | _,[] => True
  | st,event :: rest => ∀ next, step st event = some next → holds st event next ∧ Along step holds next rest

-- `allowed` before every step of a run.
def Meets (step : σ → ε → Option σ) (allowed : σ → ε → Prop) : σ → List ε → Prop
  | _,[] => True
  | st,event :: rest => allowed st event ∧ ∀ next, step st event = some next → Meets step allowed next rest

theorem along_all {step : σ → ε → Option σ} {holds : σ → ε → σ → Prop}
    (every : ∀ event ∈ events, ∀ st next, holds st event next) : Along step holds st events := by
  induction events generalizing st with
  | nil => trivial
  | cons event rest ih =>
      intro next _
      exact ⟨every event (by simp) st next,ih (fun later member => every later (by simp [member]))⟩

section
variable {step : σ → ε → Option σ} (Invariant : σ → Prop) {allowed : σ → ε → σ → Prop}
  (keeps : ∀ st event next, Invariant st → allowed st event next → step st event = some next → Invariant next)
include keeps

theorem along_invariant {holds : σ → ε → σ → Prop}
    (gives : ∀ st event next, Invariant st → allowed st event next → step st event = some next → holds st event next)
    (start : Invariant st) (meets : Along step allowed st events) : Along step holds st events := by
  induction events generalizing st with
  | nil => trivial
  | cons event rest ih =>
      intro next taken
      obtain ⟨allows,later⟩ := meets next taken
      exact ⟨gives st event next start allows taken,ih (keeps st event next start allows taken) later⟩

end

-- Where every step that keeps an invariant shows exactly when `holds` is met, so does every run.
theorem along_exact {step : σ → ε → Option σ} (Invariant : σ → Prop) {suits : ε → Prop} {holds : σ → ε → σ → Prop} {allowed : σ → ε → Prop}
    (exact : ∀ st event next, Invariant st → suits event → step st event = some next → (holds st event next ↔ allowed st event))
    (keeps : ∀ st event next, Invariant st → suits event → step st event = some next → holds st event next → Invariant next)
    (start : Invariant st) (suited : ∀ event ∈ events, suits event) :
    Along step holds st events ↔ Along step (fun before event _ => allowed before event) st events := by
  induction events generalizing st with
  | nil => exact Iff.rfl
  | cons event rest ih =>
      have fits := suited event (by simp)
      have others : ∀ event ∈ rest, suits event := fun event member => suited event (by simp [member])
      constructor
      · intro along next taken
        obtain ⟨shows,later⟩ := along next taken
        exact ⟨(exact st event next start fits taken).mp shows,(ih (keeps st event next start fits taken shows) others).mp later⟩
      · intro along next taken
        obtain ⟨allows,later⟩ := along next taken
        have shows := (exact st event next start fits taken).mpr allows
        exact ⟨shows,(ih (keeps st event next start fits taken shows) others).mpr later⟩

theorem meets_taken {step : σ → ε → Option σ} {allowed : σ → ε → Prop} (allows : allowed st event) (taken : step st event = some next)
    (later : Meets step allowed next rest) : Meets step allowed st (event :: rest) := by
  refine ⟨allows,?_⟩
  intro other taken'
  rw [taken] at taken'
  cases taken'
  exact later

theorem meets_weaker {step : σ → ε → Option σ} {allowed holds : σ → ε → Prop} (gives : ∀ st event, allowed st event → holds st event)
    (meets : Meets step allowed st events) : Meets step holds st events := by
  induction events generalizing st with
  | nil => trivial
  | cons event rest ih => exact ⟨gives st event meets.1,fun next taken => ih (meets.2 next taken)⟩

theorem meets_invariant {step : σ → ε → Option σ} (Invariant : σ → Prop) {allowed holds : σ → ε → Prop}
    (keeps : ∀ st event next, Invariant st → allowed st event → step st event = some next → Invariant next)
    (gives : ∀ st event, Invariant st → allowed st event → holds st event) (start : Invariant st)
    (meets : Meets step allowed st events) : Meets step holds st events := by
  induction events generalizing st with
  | nil => trivial
  | cons event rest ih =>
      refine ⟨gives st event start meets.1,?_⟩
      intro next taken
      exact ih (keeps st event next start meets.1 taken) (meets.2 next taken)

theorem meets_exact {step : σ → ε → Option σ} (Invariant : σ → Prop) {holds allowed : σ → ε → Prop}
    (exact : ∀ st event, Invariant st → (holds st event ↔ allowed st event))
    (keeps : ∀ st event next, Invariant st → holds st event → step st event = some next → Invariant next)
    (start : Invariant st) : Meets step holds st events ↔ Meets step allowed st events := by
  induction events generalizing st with
  | nil => exact Iff.rfl
  | cons event rest ih =>
      constructor
      · rintro ⟨shows,later⟩
        refine ⟨(exact st event start).mp shows,?_⟩
        intro next taken
        exact (ih (keeps st event next start shows taken)).mp (later next taken)
      · rintro ⟨allows,later⟩
        have shows := (exact st event start).mpr allows
        refine ⟨shows,?_⟩
        intro next taken
        exact (ih (keeps st event next start shows taken)).mpr (later next taken)

-- `good` of every state of a run, which only ends early at an event that is `excused`.
def Through (step : σ → ε → Option σ) (good : σ → Prop) (excused : ε → Prop) : σ → List ε → Prop
  | st,[] => good st
  | st,event :: rest => good st ∧ (step st event = none → excused event) ∧
      ∀ next, step st event = some next → Through step good excused next rest

theorem through_invariant {step : σ → ε → Option σ} (Invariant : σ → Prop) {allowed : σ → ε → Prop} {good : σ → Prop} {excused : ε → Prop}
    (keeps : ∀ st event next, Invariant st → allowed st event → step st event = some next → Invariant next)
    (goes : ∀ st event, Invariant st → allowed st event → step st event = none → excused event)
    (gives : ∀ st, Invariant st → good st) (start : Invariant st) (meets : Meets step allowed st events) :
    Through step good excused st events := by
  induction events generalizing st with
  | nil => exact gives st start
  | cons event rest ih =>
      refine ⟨gives st start,goes st event start meets.1,?_⟩
      intro next taken
      exact ih (keeps st event next start meets.1 taken) (meets.2 next taken)

theorem through_reached {step : σ → ε → Option σ} {good : σ → Prop} {excused : ε → Prop} (through : Through step good excused st events)
    (ran : run step st events = some last) : good last := by
  induction events generalizing st with
  | nil =>
      cases ran
      exact through
  | cons event rest ih =>
      obtain ⟨next,taken,more⟩ := Option.bind_eq_some_iff.mp ran
      exact ih (through.2.2 next taken) more

theorem through_start {step : σ → ε → Option σ} {good : σ → Prop} {excused : ε → Prop} (through : Through step good excused st events) :
    good st := by
  cases events with
  | nil => exact through
  | cons event rest => exact through.1

-- Where a step from a good state has a good result exactly if it is allowed, so does a run.
theorem through_exact {step : σ → ε → Option σ} {good : σ → Prop} {valid allowed : σ → ε → Prop}
    (exact : ∀ st event, good st → valid st event → ((∃ next, step st event = some next ∧ good next) ↔ allowed st event))
    (start : good st) (suited : Meets step valid st events) :
    Through step good (fun _ => False) st events ↔ Meets step allowed st events := by
  induction events generalizing st with
  | nil => exact iff_of_true start trivial
  | cons event rest ih =>
      obtain ⟨fits,others⟩ := suited
      constructor
      · rintro ⟨-,goes,more⟩
        obtain ⟨next,taken⟩ := Option.ne_none_iff_exists'.mp goes
        have after := through_start (more next taken)
        refine ⟨(exact st event start fits).mp ⟨next,taken,after⟩,?_⟩
        intro next' taken'
        rw [taken] at taken'
        cases taken'
        exact (ih after (others next taken)).mp (more next taken)
      · rintro ⟨allows,later⟩
        obtain ⟨next,taken,good'⟩ := (exact st event start fits).mpr allows
        refine ⟨start,by simp [taken],?_⟩
        intro next' taken'
        rw [taken] at taken'
        cases taken'
        exact (ih good' (others next taken)).mpr (later next taken)

theorem meets_before {step : σ → ε → Option σ} {allowed : σ → ε → Prop}
    (meets : Meets step allowed st (events ++ later)) : Meets step allowed st events := by
  induction events generalizing st with
  | nil => trivial
  | cons event rest ih => exact ⟨meets.1,fun next taken => ih (meets.2 next taken)⟩

theorem meets_last {step : σ → ε → Option σ} {allowed : σ → ε → Prop}
    (meets : Meets step allowed st (events ++ [event])) (ran : run step st events = some last) : allowed last event := by
  induction events generalizing st with
  | nil =>
      cases ran
      exact meets.1
  | cons first rest ih =>
      obtain ⟨middle,taken,more⟩ := Option.bind_eq_some_iff.mp ran
      exact ih (meets.2 middle taken) more

-- A run whose steps are allowed does not end early.
theorem run_reaches {step : σ → ε → Option σ} {allowed : σ → ε → Prop} (Invariant : σ → Prop)
    (goes : ∀ st event, Invariant st → allowed st event → ∃ next, step st event = some next ∧ Invariant next)
    (start : Invariant st) (meets : Meets step allowed st events) : ∃ last, run step st events = some last ∧ Invariant last := by
  induction events generalizing st with
  | nil => exact ⟨st,rfl,start⟩
  | cons event rest ih =>
      obtain ⟨next,taken,holds⟩ := goes st event start meets.1
      obtain ⟨last,ran,ends⟩ := ih holds (meets.2 next taken)
      exact ⟨last,by simp [run,taken,ran],ends⟩

theorem foldlM_keeps {α β : Type} {P : α → Prop} {f : α → β → Option α} (keeps : ∀ x y x', P x → f x y = some x' → P x') {l : List β}
    {x x' : α}
    (start : P x) (ran : l.foldlM f x = some x') : P x' := by
  induction l generalizing x with
  | nil =>
      cases ran
      exact start
  | cons y rest ih =>
      rw [List.foldlM_cons] at ran
      obtain ⟨mid,did,ran⟩ := Option.bind_eq_some_iff.mp ran
      exact ih (keeps x y mid start did) ran

theorem foldlM_each {α β : Type} {f : α → β → Option α} {l : List β} {x x' : α} (ran : l.foldlM f x = some x') :
    ∀ y ∈ l, ∃ before after, f before y = some after := by
  induction l generalizing x with
  | nil => simp
  | cons y rest ih =>
      rw [List.foldlM_cons] at ran
      obtain ⟨mid,did,ran⟩ := Option.bind_eq_some_iff.mp ran
      intro other member
      rcases List.mem_cons.mp member with rfl | inside
      · exact ⟨x,mid,did⟩
      · exact ih ran other inside

end Runs
