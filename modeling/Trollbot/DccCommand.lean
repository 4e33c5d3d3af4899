import Trollbot.Foundation.Runs
import Trollbot.Trigger
import Trollbot.User

namespace Trollbot.DccCommand
open Runs

-- Which trigger an authenticated line runs, or what it says on the partyline.
inductive Dispatch (η : Type) where
  | handled (place : Nat) (trigger : Trigger η)
  | partyline (text : Str)

section
variable {η : Type}

def dccPartylineHandler (user : User) (message : Str) : Dispatch η :=
  .partyline ('<' :: user.username ++ "> ".toList ++ message)

-- The user is looked up again by name for every trigger with flags.
def mayRun (users : List User) (user : User) (trig : Trigger η) : Option Bool :=
  match trig.globFlags with
  | none => some true
  | some flags => eggMatchattr users user.username flags

-- The triggers before `place` have been passed over.
def dccCommandHandler (users : List User) (user : User) (command : Str) : Nat → List (Trigger η) → Option (Dispatch η)
  | _,[] => some (dccPartylineHandler user command)
  | place,trig :: rest => do
    let allowed ← mayRun users user trig
    if allowed && trig.mask.isPrefixOf command && trig.handler.isSome then some (.handled place trig)
    else dccCommandHandler users user command (place + 1) rest

-- `registered` remembers the flags argument of every DCC registration, in order.
structure Access (η : Type) where
  users : List User
  trigs : TrigTable η
  registered : List (Option Str)

-- `line` is a line of a session authenticated as the record at a place of the user list. What a
-- handler does to users and triggers is part of the events after it.
inductive Event (η : Type) where
  | builtin (type : TrigType) (flags : Option Str) (mask : Str) (command : Option Str) (handler : Option η)
  | bind (type flags mask cmd : Str) (handler : Option η)
  | userList (users : List User)
  | line (place : Nat) (buffer : Str)

def dispatch (st : Access η) (place : Nat) (buffer : Str) : Option (Dispatch η) := do
  let user ← st.users[place]?
  dccCommandHandler st.users user buffer 0 (st.trigs .dcc).items

def countUse (trigs : TrigTable η) (place : Nat) : TrigTable η := fun type =>
  if type = .dcc then (trigs type).modify place (fun trig => { trig with usecount := trig.usecount + 1 })
  else trigs type

def step (st : Access η) : Event η → Option (Access η)
  | .builtin type flags mask command handler =>
    some { st with
      trigs := triggerListAdd st.trigs type (newTrigger flags type mask command handler)
      registered := if type = .dcc then st.registered ++ [flags] else st.registered }
  | .bind type flags mask cmd handler => do
    let (trigs,_) ← eggBind st.trigs type flags mask cmd handler
    some { st with
      trigs := trigs
      registered := if handler.isSome ∧ bindType type = some .dcc then st.registered ++ [some flags] else st.registered }
  | .userList users => some { st with users := users }
  | .line place buffer => do
    match ← dispatch st place buffer with
    | .handled chosen _ => some { st with trigs := countUse st.trigs chosen }
    | .partyline _ => some st

def Access.start (users : List User) : Access η := ⟨users,newTrigTable,[]⟩

-- A handler runs only for a user whose own flags include all that its registration asked for.
def Guarded (st : Access η) (event : Event η) (_ : Access η) : Prop :=
  ∀ place buffer chosen trig, event = .line place buffer → dispatch st place buffer = some (.handled chosen trig) →
    ∃ user flags, st.users[place]? = some user ∧ st.registered[chosen]? = some flags ∧
      ∀ flag ∈ requiredFlags flags, ∃ own, user.flags = some own ∧ flag ∈ own

-- egg_bind is given no DCC flags, and the first record with the session's name, ignoring case, has
-- no flag that the session's own record lacks.
def Checked (st : Access η) (event : Event η) (_ : Access η) : Prop :=
  (∀ type flags mask cmd handler, event = .bind type flags mask cmd (some handler) →
    bindType type = some .dcc → requiredFlags (some flags) = []) ∧
  (∀ place buffer user found own, event = .line place buffer → st.users[place]? = some user →
    st.users.find? (fun other => tstrcasecmp user.username other.username = 0) = some found →
    found.flags = some own → ∀ flag ∈ own, ∃ mine, user.flags = some mine ∧ flag ∈ mine)

def Registered (st : Access η) : Prop := List.Forall₂ Covers (st.trigs .dcc).items st.registered

theorem handler_passed {trigs : List (Trigger η)}
    (ran : dccCommandHandler users user command place trigs = some (.handled chosen trig)) :
    ∃ offset, chosen = place + offset ∧ trigs[offset]? = some trig ∧
      ∀ flags, trig.globFlags = some flags → eggMatchattr users user.username flags = some true := by
  induction trigs generalizing place with
  | nil => simp [dccCommandHandler,dccPartylineHandler] at ran
  | cons first rest ih =>
      simp only [dccCommandHandler,Option.bind_eq_bind,Option.bind_eq_some_iff] at ran
      obtain ⟨allowed,checked,ran⟩ := ran
      split at ran
      · rename_i passes
        cases Option.some.inj ran
        refine ⟨0,rfl,rfl,?_⟩
        intro flags some
        simp only [Bool.and_eq_true] at passes
        simpa [mayRun,some,passes.1.1] using checked
      · obtain ⟨offset,same,here,passed⟩ := ih ran
        exact ⟨offset+1,by omega,by simpa using here,passed⟩

theorem covers_at {trigs : List (Trigger η)} {place : Nat} (covers : List.Forall₂ Covers trigs registered)
    (here : trigs[place]? = some trig) : ∃ flags, registered[place]? = some flags ∧ Covers trig flags := by
  induction covers generalizing place with
  | nil => simp at here
  | cons first rest ih =>
      cases place with
      | zero =>
          cases Option.some.inj here
          exact ⟨_,rfl,first⟩
      | succ place => simpa using ih (by simpa using here)

theorem covers_add {trigs : List (Trigger η)} (covers : List.Forall₂ Covers trigs registered)
    (new : Covers trig flags) : List.Forall₂ Covers (trigs ++ [trig]) (registered ++ [flags]) := by
  induction covers with
  | nil => exact .cons new .nil
  | cons first _ ih => exact .cons first ih

theorem covers_count {trigs : List (Trigger η)} (covers : List.Forall₂ Covers trigs registered) :
    List.Forall₂ Covers (trigs.modify place (fun trig => { trig with usecount := trig.usecount + 1 })) registered := by
  induction covers generalizing place with
  | nil => cases place <;> exact .nil
  | cons first rest ih =>
      cases place with
      | zero => exact .cons first rest
      | succ place => exact .cons first ih

theorem step_registered (registered : Registered st) (checked : Checked st event next)
    (taken : step st event = some next) : Registered next := by
  cases event with
  | builtin type flags mask command handler =>
      cases Option.some.inj taken
      by_cases dcc : type = .dcc
      · subst dcc
        simp only [Registered,add_type,if_true]
        exact covers_add registered (newTrigger_covers flags handler)
      · simpa only [Registered,add_other _ _ (Ne.symm dcc),dcc,if_false] using registered
  | bind type flags mask cmd handler =>
      simp only [step,Option.bind_eq_bind,Option.bind_eq_some_iff] at taken
      obtain ⟨⟨trigs,returned⟩,bound,taken⟩ := taken
      cases Option.some.inj taken
      rcases eggBind_dcc bound with ⟨some,dcc,added⟩ | ⟨none,same⟩
      · obtain ⟨handler,rfl⟩ := Option.isSome_iff_exists.mp some
        have unflagged := checked.1 type flags mask cmd handler rfl dcc
        simp only [Registered,added,dcc,Option.isSome_some,and_self,if_true]
        refine covers_add registered ?_
        intro flag member
        rw [unflagged] at member
        cases member
      · simpa only [Registered,same,none,if_false] using registered
  | userList users =>
      cases Option.some.inj taken
      exact registered
  | line place buffer =>
      simp only [step,Option.bind_eq_bind,Option.bind_eq_some_iff] at taken
      obtain ⟨ran,-,taken⟩ := taken
      cases ran with
      | handled chosen trig =>
          cases Option.some.inj taken
          simpa [Registered,countUse] using covers_count registered
      | partyline text =>
          cases Option.some.inj taken
          exact registered

theorem step_guarded (registered : Registered st) (checked : Checked st event next) : Guarded st event next := by
  intro place buffer chosen trig same ran
  simp only [dispatch,Option.bind_eq_bind,Option.bind_eq_some_iff] at ran
  obtain ⟨user,here,ran⟩ := ran
  obtain ⟨offset,rfl,found,passed⟩ := handler_passed ran
  obtain ⟨flags,asked,covers⟩ := covers_at registered found
  refine ⟨user,flags,here,by simpa using asked,?_⟩
  intro flag member
  obtain ⟨stored,has,inStored⟩ := covers flag member
  have allowed := passed stored has
  have first : (st.users.find? (fun other => tstrcasecmp user.username other.username = 0)).isSome := by
    refine List.find?_isSome.mpr ⟨user,List.mem_of_getElem? here,by simp⟩
  obtain ⟨record,lookup⟩ := Option.isSome_iff_exists.mp first
  obtain ⟨own,flagsOf,all⟩ := matchattr_first record lookup allowed
  exact checked.2 place buffer user record own same here lookup flagsOf flag (all flag inStored)

theorem commands_guarded (users : List User) (events : List (Event η))
    (checked : Along step Checked (Access.start users) events) : Along step Guarded (Access.start users) events := by
  refine along_invariant Registered ?_ ?_ ?_ checked
  · intro st event next registered checked taken
    exact step_registered registered checked taken
  · intro st event next registered checked _
    exact step_guarded registered checked
  · exact .nil

end

-- The owner flag of .tcl, and a script command without flags.
def scripted : List (Event Str) :=
  [.builtin .dcc (some "n".toList) ".tcl".toList none (some "dcc_tcl".toList),
    .bind "dcc".toList "-".toList ".hi".toList "greet".toList (some "tcl_handler".toList),
    .line 0 ".tcl puts 1".toList]

def owner : User := newUser "alice".toList none none none none none (some "n".toList)
def guest : User := newUser "ALICE".toList none none none none none none

theorem checked_sole (st next : Access η) (sole : st.users = [user]) : Checked st (.line place buffer) next := by
  refine ⟨by simp,?_⟩
  intro place buffer other found own same here lookup flags flag member
  rw [sole] at here lookup
  have one : other = user := by simpa using List.mem_of_getElem? here
  have two : found = user := by simpa using List.mem_of_find?_eq_some lookup
  subst one two
  exact ⟨own,flags,member⟩

theorem owner_runs_tcl :
    (run step (Access.start [owner]) scripted).map (fun last => (last.trigs .dcc).items.map (·.usecount)) =
        some [1,0] ∧
      Along step Guarded (Access.start [owner]) scripted := by
  refine ⟨by decide +kernel,commands_guarded [owner] scripted ?_⟩
  intro next taken
  cases Option.some.inj taken
  refine ⟨⟨by simp,by simp⟩,?_⟩
  intro next taken
  cases Option.some.inj taken
  refine ⟨⟨?_,by simp⟩,?_⟩
  · intro type flags mask cmd handler same _
    cases same
    decide
  intro next taken
  exact ⟨checked_sole _ next rfl,trivial⟩

-- A script command registered with the owner flag runs for a user without flags.
theorem bound_flags_dropped : ¬∀ (users : List User) (events : List (Event Str)),
    Along step Guarded (Access.start users) events := by
  intro claim
  have steps := claim [guest] [.bind "dcc".toList "n".toList ".own".toList "own".toList (some "tcl_handler".toList),
    .line 0 ".own".toList]
  obtain ⟨-,steps⟩ := steps _ rfl
  obtain ⟨guarded,-⟩ := steps _ rfl
  obtain ⟨user,flags,here,asked,allowed⟩ := guarded 0 ".own".toList 0 _ rfl rfl
  cases here
  cases asked
  obtain ⟨own,has,-⟩ := allowed 'n' (by decide)
  cases has

end Trollbot.DccCommand
