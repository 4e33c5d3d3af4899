import Mathlib.Data.List.Induction
import Mathlib.Data.List.Basic

-- Loops that call what a list holds, one after the other.
namespace Rounds
variable {τ σ ω : Type}

-- `hit` tells which members are called. A test or a call without a result ends everything.
@[simp] def rounds (hit : τ → Option Bool) (call : Nat → τ → σ → Option (σ × List ω)) : Nat → List τ → σ → Option (σ × List ω)
  | _,[],st => some (st,[])
  | place,x :: rest,st => do
    let found ← hit x
    if found then do
      let (st,out) ← call place x st
      let (st,more) ← rounds hit call (place + 1) rest st
      some (st,out ++ more)
    else rounds hit call (place + 1) rest st

theorem findIdxs_same {p q : α → Bool} {l : List α} : l.findIdxs p = l.findIdxs q ↔ ∀ x ∈ l, p x = q x := by
  constructor
  · intro same x member
    obtain ⟨i,inside,rfl⟩ := List.getElem_of_mem member
    have left := List.mem_findIdxs_iff_pos_getElem (p := p) inside
    have right := List.mem_findIdxs_iff_pos_getElem (p := q) inside
    rw [same,right] at left
    cases first : p l[i] <;> cases second : q l[i] <;> simp_all
  · intro same
    suffices shifted : ∀ n, l.findIdxs p n = l.findIdxs q n from shifted 0
    induction l with
    | nil => simp
    | cons x rest ih =>
        intro n
        simp only [List.findIdxs_cons,same x (by simp),ih (fun y member => same y (by simp [member]))]

section
variable {hit : τ → Option Bool} {call : Nat → τ → σ → Option (σ × List ω)}

theorem round_skips (passed : hit x = some false) (place : Nat) (rest : List τ) (st : σ) :
    rounds hit call place (x :: rest) st = rounds hit call (place + 1) rest st := by
  simp [rounds,passed]

theorem round_calls (called : hit x = some true) (place : Nat) (rest : List τ) (st : σ) :
    rounds hit call place (x :: rest) st = (call place x st).bind (fun did =>
      (rounds hit call (place + 1) rest did.1).map (fun later => (later.1,did.2 ++ later.2))) := by
  simp only [rounds,called,Option.bind_eq_bind,Option.bind_some,if_true]
  cases call place x st with
  | none => rfl
  | some did =>
      simp only [Option.bind_some]
      cases rounds hit call (place + 1) rest did.1 with
      | none => rfl
      | some later => rfl

-- A loop that ends has skipped or called the first.
theorem round_cases (ended : rounds hit call place (x :: rest) st = some (next,out)) :
    hit x = some false ∧ rounds hit call (place + 1) rest st = some (next,out) ∨
      ∃ middle first later, hit x = some true ∧ call place x st = some (middle,first) ∧
        rounds hit call (place + 1) rest middle = some (next,later) ∧ out = first ++ later := by
  cases found : hit x with
  | none => simp [rounds,found] at ended
  | some found' =>
      cases found' with
      | false =>
          rw [round_skips found] at ended
          exact .inl ⟨rfl,ended⟩
      | true =>
          rw [round_calls found] at ended
          obtain ⟨⟨middle,first⟩,did,ended⟩ := Option.bind_eq_some_iff.mp ended
          obtain ⟨⟨last,later⟩,more,same⟩ := Option.map_eq_some_iff.mp ended
          cases same
          exact .inr ⟨middle,first,later,rfl,did,more,rfl⟩

theorem round_append (place : Nat) (front rest : List τ) (st : σ) :
    rounds hit call place (front ++ rest) st = (rounds hit call place front st).bind (fun did =>
      (rounds hit call (place + front.length) rest did.1).map (fun later => (later.1,did.2 ++ later.2))) := by
  induction front generalizing place st with
  | nil =>
      cases later : rounds hit call place rest st with
      | none => simp [rounds,later]
      | some later' => simp [rounds,later]
  | cons x front ih =>
      have length : place + (x :: front).length = place + 1 + front.length := by simp only [List.length_cons]; omega
      rw [List.cons_append,length]
      cases found : hit x with
      | none => simp [rounds,found]
      | some found' =>
          cases found' with
          | false => rw [round_skips found,round_skips found,ih]
          | true =>
              rw [round_calls found,round_calls found]
              cases call place x st with
              | none => rfl
              | some did =>
                  simp only [Option.bind_some,ih]
                  cases rounds hit call (place + 1) front did.1 with
                  | none => rfl
                  | some middle =>
                      simp only [Option.bind_some,Option.map_some]
                      cases rounds hit call (place + 1 + front.length) rest middle.1 with
                      | none => rfl
                      | some later => simp

-- Without a result there is a first member that is the reason.
theorem round_stuck (stuck : rounds hit call place l st = none) :
    ∃ front x rest next out, l = front ++ x :: rest ∧ rounds hit call place front st = some (next,out) ∧
      (hit x = none ∨ hit x = some true ∧ call (place + front.length) x next = none) := by
  induction l using List.reverseRecOn generalizing place st with
  | nil => cases stuck
  | append_singleton front x ih =>
      cases before : rounds hit call place front st with
      | none =>
          obtain ⟨earlier,y,rest,next,out,rfl,ended,reason⟩ := ih before
          exact ⟨earlier,y,rest ++ [x],next,out,by simp,ended,reason⟩
      | some did =>
          refine ⟨front,x,[],did.1,did.2,rfl,before,?_⟩
          rw [round_append,before,Option.bind_some,Option.map_eq_none_iff] at stuck
          cases found : hit x with
          | none => exact .inl rfl
          | some found' =>
              cases found' with
              | false => simp [rounds,found] at stuck
              | true =>
                  rw [round_calls found] at stuck
                  refine .inr ⟨rfl,?_⟩
                  cases did' : call (place + front.length) x did.1 with
                  | none => rfl
                  | some did'' => simp [did',rounds] at stuck

-- Where every call shows its place, what is shown are the places of the members that are hit.
theorem round_shows {shows : List ω → List Nat} (nothing : shows [] = []) (append : ∀ a b, shows (a ++ b) = shows a ++ shows b)
    (one : ∀ place x st next out, call place x st = some (next,out) → shows out = [place])
    (ended : rounds hit call place l st = some (next,out)) : shows out = l.findIdxs (fun x => decide (hit x = some true)) place := by
  induction l generalizing place st out with
  | nil =>
      cases ended
      simpa using nothing
  | cons x rest ih =>
      rw [List.findIdxs_cons]
      rcases round_cases ended with ⟨passed,more⟩ | ⟨middle,first,later,called,did,more,rfl⟩
      · simpa [passed] using ih more
      · rw [append,one _ _ _ _ _ did,ih more]
        simp [called]

theorem round_all {P : List ω → Prop} (nothing : P []) (append : ∀ a b, P a → P b → P (a ++ b))
    (one : ∀ place x st next out, call place x st = some (next,out) → P out) (ended : rounds hit call place l st = some (next,out)) :
    P out := by
  induction l generalizing place st out with
  | nil =>
      cases ended
      exact nothing
  | cons x rest ih =>
      rcases round_cases ended with ⟨-,more⟩ | ⟨middle,first,later,-,did,more,rfl⟩
      · exact ih more
      · exact append _ _ (one _ _ _ _ _ did) (ih more)

theorem round_tested (ended : rounds hit call place l st = some (next,out)) : ∀ x ∈ l, hit x ≠ none := by
  induction l generalizing place st out with
  | nil => simp
  | cons x rest ih =>
      intro y member
      rcases round_cases ended with ⟨passed,more⟩ | ⟨middle,first,later,called,-,more,-⟩
      · rcases List.mem_cons.mp member with rfl | inside
        · simp [passed]
        · exact ih more y inside
      · rcases List.mem_cons.mp member with rfl | inside
        · simp [called]
        · exact ih more y inside

section
variable {shows : List ω → List Nat} {should : τ → Bool} (nothing : shows [] = []) (append : ∀ a b, shows (a ++ b) = shows a ++ shows b)
variable (one : ∀ place x st next out, call place x st = some (next,out) → shows out = [place])
include nothing append one

-- Where the test is the right one, the right members are called, up to a call without a result.
theorem round_right (place : Nat) (st : σ) (agree : ∀ x ∈ l, hit x = some (should x)) :
    (∃ next out, rounds hit call place l st = some (next,out) ∧ shows out = l.findIdxs should place) ∨
      ∃ front x rest next out, l = front ++ x :: rest ∧ rounds hit call place front st = some (next,out) ∧
        shows out = front.findIdxs should place ∧ should x = true ∧ call (place + front.length) x next = none ∧
        rounds hit call place (front ++ [x]) st = none := by
  have right : ∀ part : List τ, (∀ x ∈ part, x ∈ l) → part.findIdxs (fun x => decide (hit x = some true)) place = part.findIdxs should place := by
    intro part inside
    have shift : ∀ p : τ → Bool, part.findIdxs p place = (part.findIdxs p).map (· + place) := fun p => List.findIdxs_start
    rw [shift,shift should,findIdxs_same.mpr]
    intro x member
    simp [agree x (inside x member)]
  cases ended : rounds hit call place l st with
  | some result => exact .inl ⟨_,_,rfl,(round_shows nothing append one ended).trans (right l (fun _ member => member))⟩
  | none =>
      obtain ⟨front,x,rest,next,out,rfl,before,reason⟩ := round_stuck ended
      have here := agree x (by simp)
      have shown := (round_shows nothing append one before).trans (right front (fun y member => by simp [member]))
      rcases reason with untested | ⟨called,stuck⟩
      · rw [untested] at here
        cases here
      · refine .inr ⟨front,x,rest,next,out,rfl,before,shown,?_,stuck,?_⟩
        · rw [called] at here
          exact (Option.some.inj here).symm
        · rw [round_append,before,Option.bind_some,round_calls called,stuck]
          rfl

end

-- What holds of the members that are left and the state.
theorem round_keeps {I : List τ → σ → Prop} (rest : List τ) (skips : ∀ x rest st, hit x = some false → I (x :: rest) st → I rest st)
    (calls : ∀ place x rest st next out, hit x = some true → call place x st = some (next,out) → I (x :: rest) st → I rest next)
    (start : I (front ++ rest) st) (ended : rounds hit call place front st = some (next,out)) : I rest next := by
  induction front generalizing place st out with
  | nil =>
      cases ended
      exact start
  | cons x front ih =>
      rcases round_cases ended with ⟨passed,more⟩ | ⟨middle,first,later,called,did,more,-⟩
      · exact ih (skips x _ st passed start) more
      · exact ih (calls place x _ st middle first called did start) more

theorem round_state {P : σ → Prop} (calls : ∀ place x st next out, call place x st = some (next,out) → P st → P next)
    (start : P st) (ended : rounds hit call place l st = some (next,out)) : P next := by
  refine round_keeps (I := fun _ middle => P middle) [] ?_ ?_ start ended
  · exact fun _ _ _ _ holds => holds
  · exact fun place x _ st next out _ did holds => calls place x st next out did holds

end

end Rounds
