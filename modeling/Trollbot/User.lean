import Trollbot.Util

namespace Trollbot

-- A list of user records stands for the chain from the first record on.
structure User where
  username : Str
  nick : Option Str
  ident : Option Str
  host : Option Str
  uhost : Option Str
  console : Option Str
  realname : Option Str
  passhash : Option Str
  hashType : Option Str
  flags : Option Str
deriving DecidableEq

def newUser (username : Str) (nick passhash ident realname host flags : Option Str) : User :=
  ⟨username,nick,ident,host,none,none,realname,passhash,none,flags⟩

-- Nothing that the writer of the user file looks at; it looks at neither console nor realname.
def Bare (user : User) : Prop :=
  user.nick = none ∧ user.ident = none ∧ user.host = none ∧ user.uhost = none ∧ user.passhash = none ∧
    user.hashType = none ∧ user.flags = none

instance (user : User) : Decidable (Bare user) := inferInstanceAs (Decidable (_ ∧ _))

-- Any other record without flags leaves the writer an empty block.
def Writable (user : User) : Prop := user.flags ≠ none ∨ Bare user

instance (user : User) : Decidable (Writable user) := inferInstanceAs (Decidable (_ ∨ _))

-- Whether users_save comes back. Without a userfile the label is read through a null pointer.
def usersSaves (userfile : Option Str) (users : List User) : Option Unit :=
  if userfile ≠ none ∧ ∀ user ∈ users, Writable user then some () else none

-- A faulting call, such as a read through a null pointer, has no result.
def eggMatchattr (users : List User) (handle flags : Str) : Option Bool :=
  match users with
  | [] => none
  | _ =>
    match users.find? (fun user => tstrcasecmp handle user.username = 0) with
    | none => some false
    | some user =>
      match user.flags with
      | none => some false
      | some own => some (flags.all (fun flag => own.contains flag))

-- create_hash of the crypto module, when one is loaded.
def eggMakepasswd (createHash : Option (Str → Str → Option Str)) (pass hashType : Str) : Option Str :=
  createHash.bind (fun create => create pass hashType)

def eggPasswdok (createHash : Option (Str → Str → Option Str)) (users : List User) (handle pass : Str) : Option Bool :=
  match users.find? (fun user => handle = user.username) with
  | none => some false
  | some user =>
    -- an empty password or "-" only asks whether there is one
    if pass = [] ∨ pass = ['-'] then some user.passhash.isSome else
    match user.hashType with
    | none => some false
    | some hashType =>
      match eggMakepasswd createHash pass hashType with
      | none => some false
      | some hash => user.passhash.map (fun stored => stored == hash)

theorem matchattr_first (user : User) (found : users.find? (fun user => tstrcasecmp handle user.username = 0) = some user)
    (passed : eggMatchattr users handle flags = some true) : ∃ own, user.flags = some own ∧ ∀ flag ∈ flags, flag ∈ own := by
  cases users with
  | nil => cases found
  | cons first rest =>
      simp only [eggMatchattr,found] at passed
      cases own : user.flags with
      | none => simp [own] at passed
      | some own' =>
          refine ⟨own',rfl,?_⟩
          simpa [own] using passed

theorem passwdok_bound {pass : Str} (found : users.find? (fun user => handle = user.username) = some user)
    (accepted : eggPasswdok createHash users handle pass = some true)
    (typed : pass ≠ [] ∧ pass ≠ ['-']) :
    ∃ stored hashType create, user.passhash = some stored ∧ user.hashType = some hashType ∧
      createHash = some create ∧ create pass hashType = some stored := by
  simp only [eggPasswdok,found,typed.1,typed.2,or_self,if_false] at accepted
  cases type : user.hashType with
  | none => simp [type] at accepted
  | some hashType =>
      cases hashed : eggMakepasswd createHash pass hashType with
      | none => simp [type,hashed] at accepted
      | some hash =>
          simp only [type,hashed,Option.map_eq_some_iff,beq_iff_eq] at accepted
          obtain ⟨stored,has,rfl⟩ := accepted
          obtain ⟨create,loaded,made⟩ := Option.bind_eq_some_iff.mp hashed
          exact ⟨stored,hashType,create,has,rfl,loaded,made⟩

theorem passwdok_dash {pass : Str} (found : users.find? (fun user => handle = user.username) = some user)
    (dash : pass = [] ∨ pass = ['-']) :
    eggPasswdok createHash users handle pass = some user.passhash.isSome := by
  simp only [eggPasswdok,found,dash,if_true]

end Trollbot
