import Trollbot.Foundation.Runs
import Trollbot.User

namespace Trollbot.DccLogin
open Runs

inductive DccStatus where
  | waiting
  | nonblockConnect
  | waitingConnect
  | notReady
  | connected
  | hasUsername
  | authenticated
deriving DecidableEq

-- The record `user` points to is given by its place in the network's user list.
structure DccSession where
  user : Option Nat
  status : DccStatus
deriving DecidableEq

-- What the login reads of g_cfg and of the network. `command` is what running an authenticated
-- line does to the user list; the login does not depend on it.
structure Setting where
  hashType : Option Str
  createHash : Option (Str → Str → Option Str)
  userfile : Option Str
  netMotd : Option Str
  cfgMotd : Option Str
  fopen : Str → Option Str
  command : List User → Str → Option (List User)

-- The session is none once it has been freed.
structure Login where
  users : List User
  session : Option DccSession

def dccPrintMotd (g : Setting) : Str :=
  match g.netMotd with
  | none =>
    match g.cfgMotd with
    | none => "Error: No MOTD found".toList
    | some motd => (g.fopen motd).getD "Error: Could not read MOTD file".toList
  | some motd => (g.fopen motd).getD "Error: Could not read MOTD file".toList

-- The stored hash is replaced when the configured hash type is no longer the user's.
def convertHash (g : Setting) (users : List User) (place : Nat) (user : User) (buffer : Str) : Option (List User) :=
  match g.hashType,user.hashType with
  | some wanted,some stored =>
    if wanted = stored then some users else do
      let converted := users.set place { user with hashType := some wanted, passhash := eggMakepasswd g.createHash buffer wanted }
      usersSaves g.userfile converted
      some converted
  | _,_ => none

-- The new state and what is written to the session's socket.
def parseDccLine (g : Setting) (st : Login) (buffer : Str) : Option (Login × List Str) :=
  match st.session with
  | none => none
  | some dcc =>
    match dcc.status with
    | .connected =>
      match st.users.findIdx? (fun user => user.username = buffer) with
      | none => some ({ st with session := none },["Incorrect username.".toList])
      | some place => do
        let user ← st.users[place]?
        if ← eggMatchattr st.users user.username ['p'] then
          some ({ st with session := some ⟨some place,.hasUsername⟩ },["Please enter your password.".toList])
        else some ({ st with session := none },["You do not have the flags to access DCC.".toList])
    | .hasUsername => do
      let place ← dcc.user
      let user ← st.users[place]?
      -- without a passhash the session is freed and then read again
      if user.passhash = none then none else
      if ← eggPasswdok g.createHash st.users user.username buffer then do
        let users ← convertHash g st.users place user buffer
        some (⟨users,some { dcc with status := .authenticated }⟩,
          [dccPrintMotd g,"Type .help for help.".toList])
      else some ({ st with session := none },["Incorrect password".toList])
    | .authenticated => do
      let users ← g.command st.users buffer
      some ({ st with users := users },[])
    | _ => some (st,[])

inductive Event where
  | line (buffer : Str)
  | polled
  | writable (valopt : Nat)
  | hangup

-- irc_loop: the status changes around the descriptor sets, and the end of a failed connect or of
-- a closed peer. The peer's lines are read only above DCC_NOTREADY.
def socketStep : Event → DccSession → Option DccSession
  | .line _,dcc => some dcc
  | .polled,⟨user,.notReady⟩ => some ⟨user,.connected⟩
  | .polled,⟨user,.nonblockConnect⟩ => some ⟨user,.waitingConnect⟩
  | .polled,dcc => some dcc
  | .writable valopt,⟨user,.waitingConnect⟩ => if valopt = 0 then some ⟨user,.notReady⟩ else none
  | .writable _,dcc => some dcc
  | .hangup,_ => none

def loopStep (g : Setting) (st : Login) (event : Event) : Option Login :=
  match event with
  | .line buffer => (parseDccLine g st buffer).map (·.1)
  | _ => some { st with session := st.session.bind (socketStep event) }

def Login.authenticated (st : Login) : Prop := ∃ dcc, st.session = some dcc ∧ dcc.status = .authenticated

-- A session waiting for its password is bound to the first record with that record's name.
def Bound (st : Login) : Prop :=
  ∀ dcc, st.session = some dcc → dcc.status = .hasUsername → ∀ place user, dcc.user = some place →
    st.users[place]? = some user → st.users.find? (fun other => user.username = other.username) = some user

-- The line is a password that egg_passwdok hashes: not the empty line and not "-" for a user with
-- a passhash.
def Typed (st : Login) (event : Event) (_ : Login) : Prop :=
  ∀ buffer dcc place user, event = .line buffer → st.session = some dcc → dcc.status = .hasUsername →
    dcc.user = some place → st.users[place]? = some user → user.passhash.isSome → buffer ≠ [] ∧ buffer ≠ ['-']

-- Whatever step makes the session authenticated was given the bound user's password.
def Sound (g : Setting) (st : Login) (event : Event) (next : Login) : Prop :=
  next.authenticated → ¬st.authenticated → ∃ buffer dcc place user stored hashType create,
    event = .line buffer ∧ st.session = some dcc ∧ dcc.user = some place ∧ st.users[place]? = some user ∧
    (∃ after, next.session = some after ∧ after.user = some place) ∧
    user.passhash = some stored ∧ user.hashType = some hashType ∧
    g.createHash = some create ∧ create buffer hashType = some stored

theorem socket_kept (moved : socketStep event dcc = some after)
    (late : after.status = .hasUsername ∨ after.status = .authenticated) : after = dcc := by
  unfold socketStep at moved
  split at moved
  · exact (Option.some.inj moved).symm
  · cases Option.some.inj moved
    simp at late
  · cases Option.some.inj moved
    simp at late
  · exact (Option.some.inj moved).symm
  · split at moved
    · cases Option.some.inj moved
      simp at late
    · cases moved
  · exact (Option.some.inj moved).symm
  · cases moved

theorem first_named {users : List User} (found : users.findIdx? (fun user => user.username = buffer) = some place)
    (here : users[place]? = some user) : users.find? (fun other => user.username = other.username) = some user := by
  obtain ⟨inside,named,first⟩ := List.findIdx?_eq_some_iff_getElem.mp found
  obtain ⟨_,rfl⟩ := List.getElem?_eq_some_iff.mp here
  have name : users[place].username = buffer := by simpa using named
  refine List.find?_eq_some_iff_getElem.mpr ⟨by simp,place,inside,rfl,?_⟩
  intro earlier before
  have differs := first earlier before
  simp only [decide_eq_true_eq] at differs
  simpa [name] using Ne.symm differs

theorem parse_cases (taken : parseDccLine g st buffer = some (next,replies)) :
    ∃ dcc, st.session = some dcc ∧
      ((next.session = none) ∨
       (∃ place user, dcc.status = .connected ∧ st.users[place]? = some user ∧ next.users = st.users ∧
          st.users.findIdx? (fun user => user.username = buffer) = some place ∧
          next.session = some ⟨some place,.hasUsername⟩) ∨
       (∃ place user, dcc.status = .hasUsername ∧ dcc.user = some place ∧ st.users[place]? = some user ∧
          user.passhash.isSome ∧ eggPasswdok g.createHash st.users user.username buffer = some true ∧
          next.session = some ⟨some place,.authenticated⟩) ∨
       (dcc.status ≠ .hasUsername ∧ next.session = some dcc)) := by
  unfold parseDccLine at taken
  cases session : st.session with
  | none => simp [session] at taken
  | some dcc =>
      refine ⟨dcc,rfl,?_⟩
      simp only [session] at taken
      cases status : dcc.status with
      | connected =>
          simp only [status] at taken
          cases place : st.users.findIdx? (fun user => user.username = buffer) with
          | none =>
              simp only [place,Option.some.injEq,Prod.mk.injEq] at taken
              exact .inl (by rw [← taken.1])
          | some place' =>
              simp only [place,Option.bind_eq_bind,Option.bind_eq_some_iff] at taken
              obtain ⟨user,here,allowed,-,taken⟩ := taken
              split at taken
              · cases Option.some.inj taken
                exact .inr (.inl ⟨place',user,rfl,here,rfl,rfl,rfl⟩)
              · cases Option.some.inj taken
                exact .inl rfl
      | hasUsername =>
          simp only [status,Option.bind_eq_bind,Option.bind_eq_some_iff] at taken
          obtain ⟨place,bound,user,here,taken⟩ := taken
          split at taken
          · cases taken
          · rename_i stored
            obtain ⟨ok,checked,taken⟩ := Option.bind_eq_some_iff.mp taken
            split at taken
            · rename_i accepted
              obtain ⟨users,-,done⟩ := Option.bind_eq_some_iff.mp taken
              cases Option.some.inj done
              subst accepted
              exact .inr (.inr (.inl ⟨place,user,rfl,bound,here,Option.isSome_iff_ne_none.mpr stored,checked,by simp [bound]⟩))
            · cases Option.some.inj taken
              exact .inl rfl
      | authenticated =>
          simp only [status,Option.bind_eq_bind,Option.bind_eq_some_iff] at taken
          obtain ⟨users,-,done⟩ := taken
          cases Option.some.inj done
          exact .inr (.inr (.inr ⟨by simp,rfl⟩))
      | _ =>
          simp only [status] at taken
          cases Option.some.inj taken
          exact .inr (.inr (.inr ⟨by simp,session⟩))

-- A step either reads a line or leaves a session above DCC_CONNECTED alone.
theorem step_cases (taken : loopStep g st event = some next) :
    (∃ buffer replies, event = .line buffer ∧ parseDccLine g st buffer = some (next,replies)) ∨
    (next.users = st.users ∧ ∀ dcc, next.session = some dcc →
      dcc.status = .hasUsername ∨ dcc.status = .authenticated → st.session = some dcc) := by
  unfold loopStep at taken
  split at taken
  · rename_i buffer
    obtain ⟨⟨_,replies⟩,parsed,rfl⟩ := Option.map_eq_some_iff.mp taken
    exact .inl ⟨buffer,replies,rfl,parsed⟩
  · cases Option.some.inj taken
    refine .inr ⟨rfl,?_⟩
    intro dcc here late
    obtain ⟨before,session,moved⟩ := Option.bind_eq_some_iff.mp here
    rw [socket_kept moved late]
    exact session

theorem step_bound (bound : Bound st) (taken : loopStep g st event = some next) : Bound next := by
  intro after here waits place user binds found
  rcases step_cases taken with ⟨buffer,replies,rfl,parsed⟩ | ⟨same,kept⟩
  · obtain ⟨dcc,session,closed | ⟨first,_,_,_,same,named,moved⟩ | ⟨_,_,_,_,_,_,_,moved⟩ | ⟨other,stays⟩⟩ := parse_cases parsed
    · rw [here] at closed
      cases closed
    · rw [here,Option.some.injEq] at moved
      subst moved
      cases Option.some.inj binds
      rw [same] at found ⊢
      exact first_named named found
    · rw [here,Option.some.injEq] at moved
      subst moved
      cases waits
    · rw [here,Option.some.injEq] at stays
      exact absurd (stays ▸ waits) other
  · rw [same] at found ⊢
    exact bound after (kept after here (.inl waits)) waits place user binds found

theorem step_sound (bound : Bound st) (typed : Typed st event next) (taken : loopStep g st event = some next) :
    Sound g st event next := by
  rintro ⟨after,here,done⟩ before
  rcases step_cases taken with ⟨buffer,replies,rfl,parsed⟩ | ⟨-,kept⟩
  · obtain ⟨dcc,session,closed | ⟨_,_,_,_,_,_,moved⟩ | ⟨place,user,status,binds,found,has,accepted,moved⟩ | ⟨_,stays⟩⟩ :=
      parse_cases parsed
    · rw [here] at closed
      cases closed
    · rw [here,Option.some.injEq] at moved
      subst moved
      cases done
    · have first := bound dcc session status place user binds found
      obtain ⟨stored,hashType,create,hash,type,loaded,made⟩ :=
        passwdok_bound first accepted (typed buffer dcc place user rfl session status binds found has)
      exact ⟨buffer,dcc,place,user,stored,hashType,create,rfl,session,binds,found,
        ⟨_,moved,rfl⟩,hash,type,loaded,made⟩
    · rw [here,Option.some.injEq] at stays
      exact absurd ⟨dcc,session,stays ▸ done⟩ before
  · exact absurd ⟨after,kept after here (.inr done),done⟩ before

-- The slip: for a bound user with a passhash and a hash type the line "-" is as good as the password.
theorem dash_authenticates (g : Setting) (st : Login) (buffer : Str) (user : User)
    (session : st.session = some ⟨some place,.hasUsername⟩) (bound : Bound st)
    (found : st.users[place]? = some user) (has : user.passhash.isSome) (same : user.hashType = some wanted)
    (configured : g.hashType = some wanted) (dash : buffer = [] ∨ buffer = ['-']) :
    ∃ next, loopStep g st (.line buffer) = some next ∧ next.authenticated := by
  have first := bound _ session rfl place user rfl found
  have accepted : eggPasswdok g.createHash st.users user.username buffer = _ := passwdok_dash first dash
  have stored : user.passhash ≠ none := Option.isSome_iff_ne_none.mp has
  refine ⟨⟨st.users,some ⟨some place,.authenticated⟩⟩,?_,⟨_,rfl,rfl⟩⟩
  have kept : convertHash g st.users place user buffer = some st.users := by
    simp only [convertHash,configured,same,if_true]
  simp only [loopStep,parseDccLine,session,found,stored,accepted,has,kept,Option.bind_eq_bind,Option.bind_some,
    if_false,if_true,Option.map_some]

-- A session below DCC_HAS_USERNAME is bound to no record yet.
def Unauthenticated (st : Login) : Prop :=
  ∀ dcc, st.session = some dcc → dcc.status ≠ .hasUsername ∧ dcc.status ≠ .authenticated

theorem login_sound (g : Setting) (events : List Event) (start : Unauthenticated st)
    (typed : Along (loopStep g) Typed st events) : Along (loopStep g) (Sound g) st events := by
  refine along_invariant Bound ?_ ?_ ?_ typed
  · intro st event next bound _ taken
    exact step_bound bound taken
  · intro st event next bound typed taken
    exact step_sound bound typed taken
  · intro dcc session waits
    exact absurd waits (start dcc session).1

-- A hash that is the password itself, and one user with flag p.
def plain : Setting :=
  ⟨some "plain".toList,some (fun pass _ => some pass),none,none,none,fun _ => none,fun users _ => some users⟩

def alice : User :=
  { newUser "alice".toList none (some "secret".toList) none none none (some "p".toList) with hashType := some "plain".toList }

def accepted : Login := ⟨[alice],some ⟨none,.notReady⟩⟩

theorem password_line_sound :
    (run (loopStep plain) accepted [.polled,.line "alice".toList,.line "secret".toList]).map (·.session) =
        some (some ⟨some 0,.authenticated⟩) ∧
      Along (loopStep plain) (Sound plain) accepted [.polled,.line "alice".toList,.line "secret".toList] := by
  refine ⟨by decide +kernel,login_sound plain _ ?_ ?_⟩
  · rintro dcc ⟨⟩
    simp
  · refine along_all ?_
    intro event member st next buffer dcc place user same
    subst same
    intros
    simp only [List.mem_cons,Event.line.injEq,List.not_mem_nil,or_false,reduceCtorEq,false_or] at member
    rcases member with rfl | rfl
    · decide
    · decide

theorem dash_is_no_password : ¬∀ (g : Setting) (st : Login) (events : List Event),
    Unauthenticated st → Along (loopStep g) (Sound g) st events := by
  intro claim
  have start : Unauthenticated accepted := by
    rintro dcc ⟨⟩
    simp
  have steps := claim plain accepted [.polled,.line "alice".toList,.line "-".toList] start
  obtain ⟨-,steps⟩ := steps ⟨[alice],some ⟨none,.connected⟩⟩ rfl
  obtain ⟨-,steps⟩ := steps ⟨[alice],some ⟨some 0,.hasUsername⟩⟩ rfl
  have bound : Bound ⟨[alice],some ⟨some 0,.hasUsername⟩⟩ := by
    rintro dcc ⟨⟩ - place user ⟨⟩ ⟨⟩
    rfl
  have typed : alice.hashType = some "plain".toList := rfl
  obtain ⟨next,taken,done⟩ := dash_authenticates plain ⟨[alice],some ⟨some 0,.hasUsername⟩⟩ "-".toList alice rfl bound rfl rfl
    typed rfl (.inr rfl)
  obtain ⟨sound,-⟩ := steps next taken
  obtain ⟨buffer,dcc,place,user,stored,hashType,create,same,session,binds,found,-,hash,-,loaded,made⟩ :=
    sound done (by rintro ⟨dcc,⟨⟩,⟨⟩⟩)
  cases session
  cases binds
  cases found
  cases hash
  cases loaded
  cases same
  simp at made

end Trollbot.DccLogin
