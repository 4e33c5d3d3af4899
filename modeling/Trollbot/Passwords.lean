import Trollbot.Channel
import Trollbot.DccLogin
import Trollbot.Users

-- A password that was accepted or confirmed, and what egg_passwdok makes of it afterwards.
namespace Trollbot.Passwords
open IrcParse Irc Users DccLogin

-- A null hash type has no hash.
def configuredHash (g : Setting) (pass : Str) : Option Str := g.hashType.bind (eggMakepasswd g.createHash pass)

def confirmation (nick pass : Str) : Str := "PRIVMSG ".toList ++ nick ++ " :Your password has been set as '".toList ++ pass ++ ['\'']

def unknownReply (nick : Str) : Str := "PRIVMSG ".toList ++ nick ++ " :I don't know you".toList

def withPassword (g : Setting) (users : List User) (place : Nat) (user : User) (pass : Str) : List User :=
  users.set place { user with passhash := configuredHash g pass, hashType := g.hashType }

-- The records afterwards, none where saving them does not come back, and the lines as they are given to tsocket_printf.
def newUserPass (g : Setting) (users : List User) (data : IrcData) : Option (Option (List User) × List Str) := do
  match ← slot data.rest 1 with
  | none => some (some users,[])
  | some pass => do
    let pre ← data.pre
    let nick ← pre.nick
    match users.findIdx? (fun user => user.nick = some nick) with
    | none => some (some users,[unknownReply nick])
    | some place => do
      let user ← users[place]?
      if user.passhash ≠ none then some (some users,[]) else
      let later := withPassword g users place user pass
      some ((usersSaves g.userfile later).map (fun _ => later),[confirmation nick pass])

-- What holds once a password has been accepted at a DCC login.
def LoginKept (g : Setting) (before after : List User) (username pass : Str) : Prop :=
  eggPasswdok g.createHash after username pass = some true ∧ (configuredHash g pass = none → after = before)

-- And once it has been confirmed: the bot is still there, too.
def SetKept (g : Setting) (before : List User) (after : Option (List User)) (username pass : Str) : Prop :=
  ∃ later, after = some later ∧ eggPasswdok g.createHash later username pass = some true ∧ (configuredHash g pass = none → later = before)

-- The user's record is the one egg_passwdok finds, or an earlier one of the name has this password too.
def Answers (g : Setting) (users : List User) (place : Nat) (user : User) (pass : Str) : Prop :=
  (users.findIdx? (fun other => user.username = other.username) = some place ∧ configuredHash g pass ≠ none) ∨
  ∃ first other stored hashType, first ≠ place ∧ users.findIdx? (fun other => user.username = other.username) = some first ∧
    users[first]? = some other ∧ other.passhash = some stored ∧ other.hashType = some hashType ∧
    eggMakepasswd g.createHash pass hashType = some stored ∧ (configuredHash g pass ≠ none ∨ user.hashType = g.hashType)

-- And every record can be saved.
def SetFits (g : Setting) (users : List User) (place : Nat) (user : User) (pass : Str) : Prop :=
  (g.userfile ≠ none ∧ ∀ other ∈ users, Writable other) ∧ Answers g users place user pass

section
variable {α : Type} {p : α → Bool} {new old : α}

theorem find_set_first {l : List α} (found : l.findIdx? p = some place) (hit : p new = true) : (l.set place new).find? p = some new := by
  induction l generalizing place with
  | nil => cases found
  | cons x rest ih =>
      rw [List.findIdx?_cons] at found
      cases here : p x with
      | true =>
          rw [here,if_pos rfl] at found
          cases found
          simp [hit]
      | false =>
          rw [here,if_neg (by simp)] at found
          obtain ⟨later,has,rfl⟩ := Option.map_eq_some_iff.mp found
          simp [here,ih has]

theorem find_set_other {l : List α} (found : l.findIdx? p = some first) (differ : first ≠ place) (here : l[place]? = some old)
    (same : p new = p old) : (l.set place new).find? p = l.find? p := by
  induction l generalizing place first with
  | nil => cases found
  | cons x rest ih =>
      rw [List.findIdx?_cons] at found
      cases place with
      | zero =>
          cases here
          have passed : p old = false := by
            cases passes : p old with
            | false => rfl
            | true =>
                rw [passes,if_pos rfl] at found
                exact absurd (Option.some.inj found).symm differ
          simp [passed,same]
      | succ place =>
          cases passes : p x with
          | true => simp [passes]
          | false =>
              rw [passes,if_neg (by simp)] at found
              obtain ⟨later,has,rfl⟩ := Option.map_eq_some_iff.mp found
              simpa [passes] using ih has (by omega) (by simpa using here)

theorem find_at {l : List α} (found : l.findIdx? p = some place) (here : l[place]? = some old) : l.find? p = some old := by
  obtain ⟨inside,hit,early⟩ := List.findIdx?_eq_some_iff_getElem.mp found
  obtain ⟨_,rfl⟩ := List.getElem?_eq_some_iff.mp here
  exact List.find?_eq_some_iff_getElem.mpr ⟨hit,place,inside,rfl,fun i before => by simpa using early i before⟩

end

section
variable {g : Setting} {pass : Str}

theorem password_line (session : st.session = some ⟨some place,.hasUsername⟩) (here : st.users[place]? = some user)
    (taken : parseDccLine g st pass = some (next,replies)) (done : next.authenticated) :
    eggPasswdok g.createHash st.users user.username pass = some true ∧ convertHash g st.users place user pass = some next.users := by
  simp only [parseDccLine,session,here,Option.bind_eq_bind,Option.bind_some] at taken
  split at taken
  · cases taken
  · obtain ⟨accepted,checked,taken⟩ := Option.bind_eq_some_iff.mp taken
    cases accepted with
    | false =>
        cases taken
        obtain ⟨dcc,gone,-⟩ := done
        cases gone
    | true =>
        obtain ⟨users,converted,finished⟩ := Option.bind_eq_some_iff.mp taken
        cases finished
        exact ⟨checked,converted⟩

-- The record with its new hash answers for the password it was made from.
theorem passwdok_made (user : User) (found : users.find? (fun other => username = other.username) = some user) (type : user.hashType = g.hashType)
    (made : user.passhash = configuredHash g pass) (typed : pass ≠ [] ∧ pass ≠ ['-']) :
    eggPasswdok g.createHash users username pass = some true ↔ configuredHash g pass ≠ none := by
  have plain : ¬(pass = [] ∨ pass = ['-']) := not_or.mpr typed
  unfold eggPasswdok
  simp only [found,if_neg plain,made,type]
  unfold configuredHash
  cases g.hashType with
  | none => simp
  | some hashType =>
      cases made' : eggMakepasswd g.createHash pass hashType <;> simp [made']

theorem passwdok_find {users later : List User} (same : later.find? (fun user => username = user.username) = users.find? (fun user => username = user.username)) :
    eggPasswdok createHash later username pass = eggPasswdok createHash users username pass := by
  simp only [eggPasswdok,same]

theorem first_exists {users : List User} {user : User} {place : Nat} (here : users[place]? = some user) :
    ∃ first, users.findIdx? (fun other => decide (user.username = other.username)) = some first := by
  refine Option.ne_none_iff_exists'.mp ?_
  intro missing
  have passed := List.findIdx?_eq_none_iff.mp missing user (List.mem_of_getElem? here)
  simp at passed

theorem login_exact (session : st.session = some ⟨some place,.hasUsername⟩) (here : st.users[place]? = some user)
    (typed : pass ≠ [] ∧ pass ≠ ['-']) (taken : parseDccLine g st pass = some (next,replies)) (done : next.authenticated) :
    LoginKept g st.users next.users user.username pass ↔ user.hashType = g.hashType ∨ configuredHash g pass ≠ none := by
  obtain ⟨accepted,converted⟩ := password_line session here taken done
  unfold convertHash at converted
  cases wanted : g.hashType with
  | none => simp [wanted] at converted
  | some wanted' =>
      cases stored : user.hashType with
      | none => simp [wanted,stored] at converted
      | some stored' =>
          simp only [wanted,stored] at converted
          by_cases same : wanted' = stored'
          · rw [if_pos same] at converted
            have kept : next.users = st.users := (Option.some.inj converted).symm
            rw [kept,same]
            exact iff_of_true ⟨accepted,fun _ => rfl⟩ (.inl rfl)
          · rw [if_neg same] at converted
            simp only [Option.bind_eq_bind,Option.bind_eq_some_iff] at converted
            obtain ⟨-,-,converted⟩ := converted
            have after : next.users = st.users.set place { user with hashType := some wanted', passhash := configuredHash g pass } := by
              rw [← Option.some.inj converted,configuredHash,wanted,Option.bind_some]
            cases made : configuredHash g pass with
            | none =>
                refine iff_of_false ?_ (by simp [Ne.symm same])
                rintro ⟨-,kept⟩
                have record : st.users[place]? = some { user with hashType := some wanted', passhash := none } := by
                  rw [← kept made,after,made]
                  obtain ⟨inside,-⟩ := List.getElem?_eq_some_iff.mp here
                  simp [inside]
                rw [here] at record
                have type := congrArg User.hashType (Option.some.inj record)
                rw [stored] at type
                exact same (Option.some.inj type).symm
            | some hash =>
                refine iff_of_true ⟨?_,fun none' => by simp [made] at none'⟩ (.inr (by simp))
                obtain ⟨first,found⟩ := first_exists here
                by_cases own : first = place
                · subst own
                  refine (passwdok_made { user with hashType := some wanted', passhash := configuredHash g pass } ?_ wanted.symm rfl typed).mpr
                    (by simp [made])
                  rw [after]
                  exact find_set_first found (by simp)
                · rw [passwdok_find]
                  · exact accepted
                  · rw [after]
                    exact find_set_other found own here (by simp)

theorem confirmation_differs (nick pass : Str) : confirmation nick pass ≠ unknownReply nick := by
  intro same
  unfold confirmation unknownReply at same
  rw [List.append_assoc,List.append_assoc] at same
  have text := List.append_cancel_left same
  have letter : (" :Your password has been set as '".toList ++ (pass ++ ['\'']))[2]? = some 'Y' := rfl
  rw [text] at letter
  exact absurd letter (by decide)

-- A confirmation comes from a record that had no password.
theorem confirmed_set (pre : data.pre = some pre') (named : pre'.nick = some nick)
    (taken : newUserPass g users data = some (after,out)) (confirmed : confirmation nick pass ∈ out)
    (asked : slot data.rest 1 = some (some pass)) :
    ∃ place user, users.findIdx? (fun user => user.nick = some nick) = some place ∧ users[place]? = some user ∧ user.passhash = none ∧
      after = (usersSaves g.userfile (withPassword g users place user pass)).map (fun _ => withPassword g users place user pass) := by
  simp only [newUserPass,asked,pre,named,Option.bind_eq_bind,Option.bind_some] at taken
  cases found : users.findIdx? (fun user => decide (user.nick = some nick)) with
  | none =>
      simp only [found,Option.some.injEq,Prod.mk.injEq] at taken
      obtain ⟨-,rfl⟩ := taken
      exact absurd (List.mem_singleton.mp confirmed) (confirmation_differs nick pass)
  | some place =>
      simp only [found,Option.bind_eq_some_iff] at taken
      obtain ⟨user,here,taken⟩ := taken
      split at taken
      · cases taken
        cases confirmed
      · rename_i unset
        cases taken
        exact ⟨place,user,rfl,here,not_not.mp unset,rfl⟩

theorem passwdok_iff (user : User) (found : users.find? (fun other => username = other.username) = some user) (typed : pass ≠ [] ∧ pass ≠ ['-']) :
    eggPasswdok createHash users username pass = some true ↔ ∃ stored hashType, user.passhash = some stored ∧
      user.hashType = some hashType ∧ eggMakepasswd createHash pass hashType = some stored := by
  have plain : ¬(pass = [] ∨ pass = ['-']) := not_or.mpr typed
  unfold eggPasswdok
  simp only [found,if_neg plain]
  cases user.hashType with
  | none => simp
  | some hashType =>
      cases made : eggMakepasswd createHash pass hashType with
      | none => simp [made]
      | some hash => simp [made]

-- A record is the same after a password command that made no hash exactly when the type was configured.
theorem unset_same {users : List User} (here : users[place]? = some user) (unset : user.passhash = none)
    (made : configuredHash g pass = none) :
    users.set place { user with passhash := configuredHash g pass, hashType := g.hashType } = users ↔ user.hashType = g.hashType := by
  obtain ⟨inside,is⟩ := List.getElem?_eq_some_iff.mp here
  rw [made]
  constructor
  · intro same
    have record : users[place]? = some { user with passhash := none, hashType := g.hashType } := by
      rw [← same]
      simp [inside]
    rw [here] at record
    exact congrArg User.hashType (Option.some.inj record)
  · intro type
    have record : { user with passhash := none, hashType := g.hashType } = user := by
      rw [← type,← unset]
    rw [record,← is]
    exact List.set_getElem_self inside

theorem answers_exact (here : users[place]? = some user) (unset : user.passhash = none) (typed : pass ≠ [] ∧ pass ≠ ['-']) :
    (eggPasswdok g.createHash (withPassword g users place user pass) user.username pass = some true ∧
      (configuredHash g pass = none → withPassword g users place user pass = users)) ↔ Answers g users place user pass := by
  obtain ⟨first,found⟩ := first_exists here
  unfold Answers withPassword
  rw [found]
  by_cases own : first = place
  · subst own
    have set := find_set_first found (show decide (user.username = ({ user with
      passhash := configuredHash g pass, hashType := g.hashType } : User).username) = true by simp)
    have answers := passwdok_made (g := g) _ set rfl rfl typed
    constructor
    · rintro ⟨accepted,-⟩
      exact .inl ⟨rfl,answers.mp accepted⟩
    · rintro (⟨-,made⟩ | ⟨other,_,_,_,differ,same,-⟩)
      · exact ⟨answers.mpr made,fun none' => absurd none' made⟩
      · exact absurd (Option.some.inj same).symm differ
  · have kept : eggPasswdok g.createHash (users.set place { user with
        passhash := configuredHash g pass, hashType := g.hashType }) user.username pass =
        eggPasswdok g.createHash users user.username pass := passwdok_find (find_set_other found own here rfl)
    have inside : first < users.length := (List.findIdx?_eq_some_iff_getElem.mp found).1
    have other : users[first]? = some users[first] := List.getElem?_eq_getElem inside
    rw [kept,passwdok_iff _ (find_at found other) typed]
    constructor
    · rintro ⟨⟨stored,hashType,hash,type,made⟩,same⟩
      refine .inr ⟨first,users[first],stored,hashType,own,rfl,other,hash,type,made,?_⟩
      by_cases new : configuredHash g pass = none
      · exact .inr ((unset_same here unset new).mp (same new))
      · exact .inl new
    · rintro (⟨same,-⟩ | ⟨first',other',stored,hashType,-,same,there,hash,type,made,fits⟩)
      · exact absurd (Option.some.inj same) own
      · cases Option.some.inj same
        rw [other] at there
        cases there
        refine ⟨⟨stored,hashType,hash,type,made⟩,?_⟩
        intro none'
        rcases fits with some' | type'
        · exact absurd none' some'
        · exact (unset_same here unset none').mpr type'

-- A password makes no difference to whether a record with a nick can be saved.
theorem writable_withPassword (here : users[place]? = some user) (nick : user.nick ≠ none) :
    (∀ other ∈ withPassword g users place user pass, Writable other) ↔ ∀ other ∈ users, Writable other := by
  obtain ⟨inside,is⟩ := List.getElem?_eq_some_iff.mp here
  have flagged : ∀ hash type, Writable { user with passhash := hash, hashType := type } ↔ Writable user := by
    intro hash type
    simp [Writable,Bare,nick]
  unfold withPassword
  constructor
  · intro all other member
    obtain ⟨i,bound,rfl⟩ := List.getElem_of_mem member
    by_cases own : i = place
    · subst own
      rw [is]
      exact (flagged _ _).mp (all _ (List.mem_set inside _))
    · have stays : (users.set place { user with passhash := configuredHash g pass, hashType := g.hashType })[i]? = some users[i] := by
        rw [List.getElem?_set_ne (Ne.symm own),List.getElem?_eq_getElem bound]
      exact all _ (List.mem_of_getElem? stays)
  · intro all other member
    rcases List.mem_or_eq_of_mem_set member with old | rfl
    · exact all other old
    · exact (flagged _ _).mpr (all user (List.mem_of_getElem? here))

theorem set_exact (here : users[place]? = some user) (nick : user.nick ≠ none) (unset : user.passhash = none) (typed : pass ≠ [] ∧ pass ≠ ['-']) :
    SetKept g users ((usersSaves g.userfile (withPassword g users place user pass)).map (fun _ => withPassword g users place user pass)) user.username pass ↔
      SetFits g users place user pass := by
  have writable : (∀ other ∈ withPassword g users place user pass, Writable other) ↔ ∀ other ∈ users, Writable other :=
    writable_withPassword here nick
  unfold SetKept SetFits
  rw [← answers_exact here unset typed,← writable]
  by_cases saves : g.userfile ≠ none ∧ ∀ other ∈ withPassword g users place user pass, Writable other
  · rw [usersSaves,if_pos saves]
    simp only [Option.map_some,Option.some.injEq,exists_eq_left']
    exact (and_iff_right saves).symm
  · rw [usersSaves,if_neg saves]
    simp only [Option.map_none,reduceCtorEq,false_and,exists_false,false_iff]
    exact fun fits => saves fits.1

-- Both ways to a password, for every list of users, hash function and hash type.
theorem passwords_work (g : Setting) :
    (∀ (st next : Login) (place : Nat) (user : User) (pass : Str) (replies : List Str), pass ≠ [] → pass ≠ ['-'] →
      st.session = some ⟨some place,.hasUsername⟩ → st.users[place]? = some user →
      parseDccLine g st pass = some (next,replies) → next.authenticated →
      (LoginKept g st.users next.users user.username pass ↔ user.hashType = g.hashType ∨ configuredHash g pass ≠ none)) ∧
    (∀ (users : List User) (after : Option (List User)) (data : IrcData) (pre : IrcPrefix) (nick pass : Str) (lines : List Str),
      pass ≠ [] → pass ≠ ['-'] → data.pre = some pre → pre.nick = some nick → slot data.rest 1 = some (some pass) →
      newUserPass g users data = some (after,lines) → confirmation nick pass ∈ lines →
      ∃ place user, users.findIdx? (fun user => user.nick = some nick) = some place ∧ users[place]? = some user ∧
        (SetKept g users after user.username pass ↔ SetFits g users place user pass)) := by
  constructor
  · intro st next place user pass replies some' dash session here taken done
    exact login_exact session here ⟨some',dash⟩ taken done
  · intro users after data pre nick pass lines some' dash prefixed named asked taken confirmed
    obtain ⟨place,user,found,here,unset,rfl⟩ := confirmed_set prefixed named taken confirmed asked
    obtain ⟨inside,hit,-⟩ := List.findIdx?_eq_some_iff_getElem.mp found
    rw [List.getElem?_eq_getElem inside,Option.some.injEq] at here
    rw [here] at hit
    refine ⟨place,user,found,by rw [List.getElem?_eq_getElem inside,here],set_exact ?_ ?_ unset ⟨some',dash⟩⟩
    · rw [List.getElem?_eq_getElem inside,here]
    · intro none'
      simp [none'] at hit

end

-- Hashes that name their type, made for every type or for the old one only.
def hashed (types : List Str) (pass hashType : Str) : Option Str :=
  if hashType ∈ types then some (hashType ++ pass) else none

def newType (types : List Str) : Setting :=
  ⟨some "new".toList,some (hashed types),some "users".toList,none,none,fun _ => none,fun users _ => some users⟩

def bob : User :=
  { newUser "bob".toList none (some "oldsecret".toList) none none none (some "p".toList) with hashType := some "old".toList }

def waitingBob : Login := ⟨[bob],some ⟨some 0,.hasUsername⟩⟩

def rehashedBob (types : List Str) : Login :=
  ⟨[{ bob with hashType := some "new".toList, passhash := hashed types "secret".toList "new".toList }],some ⟨some 0,.authenticated⟩⟩

theorem bob_taken (types : List Str) (old : "old".toList ∈ types) : ∃ replies,
    parseDccLine (newType types) waitingBob "secret".toList = some (rehashedBob types,replies) := by
  have accepted : eggPasswdok (some (hashed types)) [bob] "bob".toList "secret".toList = some true := by
    refine (passwdok_iff bob rfl ⟨by decide,by decide⟩).mpr ⟨"oldsecret".toList,"old".toList,rfl,rfl,?_⟩
    show hashed types "secret".toList "old".toList = _
    rw [hashed,if_pos old]
    rfl
  refine ⟨[dccPrintMotd (newType types),"Type .help for help.".toList],?_⟩
  have accepted' : eggPasswdok (newType types).createHash waitingBob.users bob.username "secret".toList = some true := accepted
  have here : waitingBob.users[0]? = some bob := rfl
  have has : bob.passhash ≠ none := by decide
  have converted : convertHash (newType types) waitingBob.users 0 bob "secret".toList = some (rehashedBob types).users := rfl
  simp only [parseDccLine,show waitingBob.session = some ⟨some 0,.hasUsername⟩ from rfl,here,if_neg has,accepted',converted,
    Option.bind_eq_bind,Option.bind_some,if_true]
  rfl

-- Cid sets his password with the pass command.
def cid : User := newUser "cid".toList (some "cid".toList) none none none none (some "p".toList)

def cidPass : IrcData :=
  ⟨some ⟨none,some "cid".toList,some "c".toList,some "h".toList⟩,"PRIVMSG".toList,none,none,some [some (some "pass".toList),some (some "x".toList)],none⟩

def savedCid (types : List Str) : List User := withPassword (newType types) [bob,cid] 1 cid "x".toList

theorem cid_taken (types : List Str) :
    newUserPass (newType types) [bob,cid] cidPass = some (some (savedCid types),[confirmation "cid".toList "x".toList]) := by
  have found : [bob,cid].findIdx? (fun user => user.nick = some "cid".toList) = some 1 := by decide
  have unset : ¬cid.passhash ≠ none := not_not_intro rfl
  have writable : ∀ other ∈ savedCid types, Writable other :=
    (writable_withPassword (by rfl) (by decide)).mpr (by decide)
  have saves : usersSaves (newType types).userfile (withPassword (newType types) [bob,cid] 1 cid "x".toList) = some () :=
    if_pos ⟨by simp [newType],writable⟩
  have asked : slot cidPass.rest 1 = some (some "x".toList) := rfl
  simp only [newUserPass,asked,Option.bind_eq_bind,Option.bind_some,show cidPass.pre = some ⟨none,some "cid".toList,some "c".toList,some "h".toList⟩ from rfl,
    found,show ([bob,cid])[1]? = some cid from rfl,if_neg unset,saves,Option.map_some]
  rfl

theorem bob_rehashed : LoginKept (newType ["old".toList,"new".toList]) [bob] (rehashedBob ["old".toList,"new".toList]).users "bob".toList
      "secret".toList ∧
    SetKept (newType ["new".toList]) [bob,cid] (some (savedCid ["new".toList])) "cid".toList "x".toList := by
  obtain ⟨replies,taken⟩ := bob_taken ["old".toList,"new".toList] (by decide)
  constructor
  · exact ((passwords_work (newType ["old".toList,"new".toList])).1 waitingBob _ 0 bob "secret".toList replies (by decide) (by decide)
      rfl rfl taken ⟨_,rfl,rfl⟩).mpr (.inr (by decide))
  · obtain ⟨place,user,found,here,kept⟩ := (passwords_work (newType ["new".toList])).2 [bob,cid] _ cidPass _ "cid".toList "x".toList _
      (by decide) (by decide) rfl rfl rfl (cid_taken ["new".toList]) (by simp)
    have second : [bob,cid].findIdx? (fun user => user.nick = some "cid".toList) = some 1 := by decide
    rw [second] at found
    cases found
    cases here
    exact kept.mpr ⟨⟨by simp [newType],by decide⟩,.inl ⟨by decide,by decide⟩⟩

-- With no hash of the new type the accepted password is gone.
theorem bob_locked_out : ∃ replies,
    parseDccLine (newType ["old".toList]) waitingBob "secret".toList = some (rehashedBob ["old".toList],replies) ∧
      (rehashedBob ["old".toList]).authenticated ∧
      eggPasswdok (newType ["old".toList]).createHash (rehashedBob ["old".toList]).users "bob".toList "secret".toList = some false ∧
      configuredHash (newType ["old".toList]) "secret".toList = none ∧ (rehashedBob ["old".toList]).users ≠ waitingBob.users := by
  obtain ⟨replies,taken⟩ := bob_taken ["old".toList] (by decide)
  exact ⟨replies,taken,⟨_,rfl,rfl⟩,by decide,by decide,by decide⟩

end Trollbot.Passwords
