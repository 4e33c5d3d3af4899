import Trollbot.DccCommand
import Trollbot.Passwords

-- Where the flags come from that let a user run a command.
namespace Trollbot.Privileges
open IrcParse Users Runs Irc DccLogin Passwords

-- What happens to the users of a network. A login is the line with the password, for a session whose username is known.
inductive Change where
  | op (op : Op)
  | pass (data : IrcData)
  | login (place : Nat) (buffer : Str)

def change (g : Setting) (defaultFlags : Option Str) (users : Chain User) : Change → Option (Chain User)
  | .op op => step defaultFlags g.hashType (usersSaves g.userfile) users op
  | .pass data => do
    let (saved,_) ← newUserPass g users.items data
    let items ← saved
    some { users with items := items }
  | .login place buffer =>
    (parseDccLine g ⟨users.items,some ⟨some place,.hasUsername⟩⟩ buffer).map (fun result => { users with items := result.1.users })

-- From the first record on, as egg_matchattr goes through them.
def records (users : Chain User) : List User := users.inOrder

-- What a record that is named so at the start is named afterwards, or was for as long as a script did not rename it.
def Bears : List Change → Str → Str → Prop
  | [],first,name => first = name
  | event :: rest,first,name =>
    Bears rest first name ∨ ∃ new, event = .op (.chhandle (some first) (some new)) ∧ Bears rest new name

-- The default flags, or those of a record that was there before and bears the name.
def Descends (defaultFlags : Option Str) (changes : List Change) (before : Chain User) (user : User) : Prop :=
  user.flags = defaultFlags ∨ ∃ first ∈ before.whole, first.flags = user.flags ∧ Bears changes first.username user.username

-- The default ones include them, or a record that bears the name had them at the start.
def Given (defaultFlags : Option Str) (changes : List Change) (before : Chain User) (username flags : Str) : Prop :=
  (∃ own, defaultFlags = some own ∧ ∀ flag ∈ flags, flag ∈ own) ∨
    ∃ first ∈ records before, ∃ own, first.flags = some own ∧ (∀ flag ∈ flags, flag ∈ own) ∧ Bears changes first.username username

-- No two users have names that are the same to egg_matchattr.
def Distinct (users : List User) : Prop := (names users).Nodup

theorem mem_records {users : Chain User} : user ∈ records users ↔ user ∈ users.whole := by
  simp [records,Chain.inOrder,Chain.whole]

theorem convertHash_cases {users : List User} (done : convertHash g users place user buffer = some later) :
    later = users ∨ later = withPassword g users place user buffer := by
  unfold convertHash at done
  split at done
  · rename_i wanted stored configured _
    split at done
    · cases done
      exact .inl rfl
    · obtain ⟨_,-,done⟩ := Option.bind_eq_some_iff.mp done
      cases done
      refine .inr ?_
      rw [withPassword,configuredHash,configured,Option.bind_some]
  · cases done

-- A login writes at most the password and its type.
theorem login_cases (done : parseDccLine g ⟨users,some ⟨some place,.hasUsername⟩⟩ buffer = some (later,replies)) :
    later.users = users ∨ ∃ user, users[place]? = some user ∧ later.users = withPassword g users place user buffer := by
  obtain ⟨user,here,done⟩ := Option.bind_eq_some_iff.mp done
  split at done
  · cases done
  · obtain ⟨accepted,-,done⟩ := Option.bind_eq_some_iff.mp done
    cases accepted with
    | false =>
        cases done
        exact .inl rfl
    | true =>
        obtain ⟨converted,made,done⟩ := Option.bind_eq_some_iff.mp done
        cases done
        rcases convertHash_cases made with rfl | rfl
        · exact .inl rfl
        · exact .inr ⟨user,here,rfl⟩

theorem newUserPass_cases (done : newUserPass g users data = some (some later,lines)) :
    later = users ∨ ∃ place user pass, users[place]? = some user ∧ later = withPassword g users place user pass := by
  obtain ⟨word,-,done⟩ := Option.bind_eq_some_iff.mp done
  cases word with
  | none =>
      cases done
      exact .inl rfl
  | some pass =>
      obtain ⟨pre,-,done⟩ := Option.bind_eq_some_iff.mp done
      obtain ⟨nick,-,done⟩ := Option.bind_eq_some_iff.mp done
      dsimp only at done
      split at done
      · cases done
        exact .inl rfl
      · rename_i place found
        obtain ⟨user,here,done⟩ := Option.bind_eq_some_iff.mp done
        split at done
        · cases done
          exact .inl rfl
        · obtain ⟨saved,-⟩ := Prod.mk.inj (Option.some.inj done)
          obtain ⟨-,-,rfl⟩ := Option.map_eq_some_iff.mp saved
          exact .inr ⟨place,user,pass,here,rfl⟩

-- A password that is set leaves names and flags.
theorem set_descends {users : Chain User} {user : User} {pass : Str} (here : users.items[place]? = some user)
    (member : other ∈ ({ users with items := withPassword g users.items place user pass } : Chain User).whole) :
    ∃ first ∈ users.whole, first.flags = other.flags ∧ first.username = other.username := by
  rcases List.mem_append.mp member with behind | inside
  · exact ⟨other,List.mem_append_left _ behind,rfl,rfl⟩
  · rcases List.mem_or_eq_of_mem_set inside with old | rfl
    · exact ⟨other,List.mem_append_right _ old,rfl,rfl⟩
    · exact ⟨user,List.mem_append_right _ (List.mem_of_getElem? here),rfl,rfl⟩

theorem rename_member (member : user ∈ renameLast old new items) :
    user ∈ items ∨ ∃ first ∈ items, first.username = old ∧ user = { first with username := new } := by
  induction items with
  | nil => exact .inl member
  | cons first rest ih =>
      rw [renameLast] at member
      split at member
      · rename_i last
        rcases List.mem_cons.mp member with rfl | behind
        · exact .inr ⟨first,by simp,last.1,rfl⟩
        · exact .inl (by simp [behind])
      · rcases List.mem_cons.mp member with rfl | behind
        · exact .inl (by simp)
        · rcases ih behind with kept | ⟨other,inside,renamed⟩
          · exact .inl (by simp [kept])
          · exact .inr ⟨other,by simp [inside],renamed⟩

-- The record of somebody new who says hello.
def greeted (defaultFlags hashType : Option Str) (nick ident host : Str) : User :=
  { newUser nick (some nick) none (some ident) none (some host) defaultFlags with
    hashType := hashType, uhost := some (ident ++ '!' :: nick ++ '@' :: host) }

theorem hello_member (done : introduceUser defaultFlags hashType users pre = some later) (member : user ∈ later.whole) :
    user ∈ users.whole ∨ ∃ p nick ident host, pre = some p ∧ p.nick = some nick ∧ p.user = some ident ∧ p.host = some host ∧
      user = greeted defaultFlags hashType nick ident host := by
  obtain ⟨p,same,done⟩ := Option.bind_eq_some_iff.mp done
  obtain ⟨nick,named,done⟩ := Option.bind_eq_some_iff.mp done
  cases walk : walkTo nick users.items with
  | none =>
      rw [walk] at done
      obtain ⟨ident,ident',done⟩ := Option.bind_eq_some_iff.mp done
      obtain ⟨host,host',done⟩ := Option.bind_eq_some_iff.mp done
      cases done
      rw [Chain.whole,List.nil_append,List.mem_singleton] at member
      exact .inr ⟨p,nick,ident,host,same,named,ident',host',member⟩
  | some stop =>
      obtain ⟨before,last⟩ := stop
      rw [walk] at done
      obtain ⟨own,-,done⟩ := Option.bind_eq_some_iff.mp done
      split at done
      · cases done
        exact .inl member
      · obtain ⟨ident,ident',done⟩ := Option.bind_eq_some_iff.mp done
        obtain ⟨host,host',done⟩ := Option.bind_eq_some_iff.mp done
        cases done
        simp only [Chain.whole,List.mem_append,List.mem_cons,List.not_mem_nil,or_false] at member
        rcases member with behind | early | rfl | rfl
        · exact .inl (List.mem_append_left _ behind)
        · have inside : user ∈ users.items := by
            rcases walkTo_parts walk with ⟨rest,parts,-⟩ | parts <;> simp [parts,early]
          exact .inl (List.mem_append_right _ inside)
        · have inside : user ∈ users.items := by
            rcases walkTo_parts walk with ⟨rest,parts,-⟩ | parts <;> simp [parts]
          exact .inl (List.mem_append_right _ inside)
        · exact .inr ⟨p,nick,ident,host,same,named,ident',host',rfl⟩

theorem adduser_member (done : eggAdduser defaultFlags save chans users username hostmask = some (later,added)) (member : user ∈ later.whole) :
    user ∈ users.whole ∨ ∃ name, username = some name ∧ (user = newUser name (some name) none none none hostmask defaultFlags ∨
      ∃ cuser, searchChans name chans = some (some cuser) ∧
        user = newUser name cuser.nick none cuser.ident cuser.realname (hostmask.or cuser.host) defaultFlags) := by
  unfold eggAdduser at done
  split at done
  · cases done
    exact .inl member
  split at done
  · cases done
    exact .inl member
  · rename_i name _
    obtain ⟨cuser,found,done⟩ := Option.bind_eq_some_iff.mp done
    obtain ⟨_,-,done⟩ := Option.bind_eq_some_iff.mp done
    cases done
    rcases Chain.mem_add member with old | rfl
    · exact .inl old
    · cases cuser with
      | none => exact .inr ⟨name,rfl,.inl rfl⟩
      | some cuser => exact .inr ⟨name,rfl,.inr ⟨cuser,found,rfl⟩⟩

theorem deluser_member (member : user ∈ (eggDeluser users username).1.whole) : user ∈ users.whole := by
  unfold eggDeluser at member
  split at member
  · exact member
  split at member
  · exact member
  · exact Chain.mem_del _ member

theorem chhandle_member (member : user ∈ (eggChhandle users old new).1.whole) :
    user ∈ users.whole ∨ ∃ first ∈ users.whole, ∃ name, old = some first.username ∧ new = some name ∧ user = { first with username := name } := by
  unfold eggChhandle at member
  split at member
  · exact .inl member
  · exact .inl member
  · exact .inl member
  split at member
  · exact .inl member
  split at member
  · rcases List.mem_append.mp member with behind | inside
    · exact .inl (List.mem_append_left _ behind)
    · rcases rename_member inside with kept | ⟨first,there,named,rfl⟩
      · exact .inl (List.mem_append_right _ kept)
      · exact .inr ⟨first,List.mem_append_right _ there,_,by rw [named],rfl,rfl⟩
  · exact .inl member

theorem change_descends (done : change g defaultFlags users event = some later) (member : user ∈ later.whole) :
    user.flags = defaultFlags ∨ ∃ first ∈ users.whole, first.flags = user.flags ∧
      (first.username = user.username ∨ event = .op (.chhandle (some first.username) (some user.username))) := by
  have kept : user ∈ users.whole → user.flags = defaultFlags ∨ ∃ first ∈ users.whole, first.flags = user.flags ∧
      (first.username = user.username ∨ event = .op (.chhandle (some first.username) (some user.username))) :=
    fun old => .inr ⟨user,old,rfl,.inl rfl⟩
  cases event with
  | op op =>
      cases op with
      | hello pre =>
          rcases hello_member done member with old | ⟨p,nick,ident,host,-,-,-,-,rfl⟩
          · exact kept old
          · exact .inl rfl
      | adduser username hostmask chans =>
          obtain ⟨⟨next,added⟩,ran,same⟩ := Option.map_eq_some_iff.mp done
          cases same
          rcases adduser_member ran member with old | ⟨name,-,rfl | ⟨cuser,-,rfl⟩⟩
          · exact kept old
          · exact .inl rfl
          · exact .inl rfl
      | deluser username =>
          cases done
          exact kept (deluser_member member)
      | chhandle old new =>
          cases done
          rcases chhandle_member member with there | ⟨first,there,name,rfl,rfl,rfl⟩
          · exact kept there
          · exact .inr ⟨first,there,rfl,.inr rfl⟩
  | pass data =>
      obtain ⟨⟨saved,lines⟩,ran,done⟩ := Option.bind_eq_some_iff.mp done
      obtain ⟨items,rfl,done⟩ := Option.bind_eq_some_iff.mp done
      cases done
      rcases newUserPass_cases ran with rfl | ⟨place,own,pass,here,rfl⟩
      · exact kept member
      · obtain ⟨first,there,flags,named⟩ := set_descends here member
        exact .inr ⟨first,there,flags,.inl named⟩
  | login place buffer =>
      obtain ⟨⟨next,replies⟩,ran,rfl⟩ := Option.map_eq_some_iff.mp done
      rcases login_cases ran with same | ⟨own,here,set⟩
      · rw [same] at member
        exact kept member
      · rw [set] at member
        obtain ⟨first,there,flags,named⟩ := set_descends here member
        exact .inr ⟨first,there,flags,.inl named⟩

theorem run_descends {changes : List Change} (ran : run (change g defaultFlags) users changes = some later) (member : user ∈ later.whole) :
    Descends defaultFlags changes users user := by
  induction changes generalizing users with
  | nil =>
      cases ran
      exact .inr ⟨user,member,rfl,rfl⟩
  | cons event rest ih =>
      obtain ⟨next,done,more⟩ := Option.bind_eq_some_iff.mp ran
      rcases ih more with flags | ⟨middle,there,flags,named⟩
      · exact .inl flags
      · rcases change_descends done there with flags' | ⟨first,here,flags',same | renamed⟩
        · exact .inl (flags.symm.trans flags')
        · exact .inr ⟨first,here,flags'.trans flags,.inl (by rwa [same])⟩
        · exact .inr ⟨first,here,flags'.trans flags,.inr ⟨_,renamed,named⟩⟩

-- The record that egg_matchattr finds is the user's own.
theorem own_answer {users : List User} (distinct : Distinct users) (member : session ∈ users) (flags : Str) :
    eggMatchattr users session.username flags = some (session.flags.any (fun own => flags.all (fun flag => own.contains flag))) := by
  have searched : (users.find? (fun other => tstrcasecmp session.username other.username = 0)).isSome :=
    List.find?_isSome.mpr ⟨session,member,by simp⟩
  obtain ⟨found,lookup⟩ := Option.isSome_iff_exists.mp searched
  have named : fold session.username = fold found.username := by simpa using List.find?_some lookup
  obtain rfl : session = found := List.inj_on_of_nodup_map distinct member (List.mem_of_find?_eq_some lookup) named
  cases users with
  | nil => cases member
  | cons first rest =>
      simp only [eggMatchattr,lookup]
      cases session.flags <;> rfl

theorem own_record {users : List User} (distinct : Distinct users) (member : session ∈ users)
    (passed : eggMatchattr users session.username flags = some true) : ∃ own, session.flags = some own ∧ ∀ flag ∈ flags, flag ∈ own := by
  rw [own_answer distinct member,Option.some.injEq,Option.any_eq_true] at passed
  obtain ⟨own,has,all⟩ := passed
  exact ⟨own,has,by simpa using all⟩

-- A user who passes a check of flags has been given them.
theorem passed_given {changes : List Change} (ran : run (change g defaultFlags) users changes = some later) (distinct : Distinct (records later))
    (session : User) (member : session ∈ records later) (passed : eggMatchattr (records later) session.username flags = some true) :
    Given defaultFlags changes users session.username flags := by
  obtain ⟨own,has,all⟩ := own_record distinct member passed
  rcases run_descends ran (mem_records.mp member) with flags' | ⟨first,there,flags',named⟩
  · exact .inl ⟨own,flags'.symm.trans has,all⟩
  · exact .inr ⟨first,mem_records.mpr there,own,flags'.trans has,all,named⟩

-- The owner's password is read, and somebody says hello.
def plainHash : Setting := ⟨some "t".toList,some (fun pass hashType => some (hashType ++ pass)),some "users".toList,none,none,fun _ => none,fun users _ => some users⟩

def ann : User := { newUser "ann".toList (some "ann".toList) (some "old".toList) none none none (some "pn".toList) with hashType := some [] }

def bob : User := { newUser "bob".toList (some "bob".toList) none (some "b".toList) none (some "h".toList) (some "p".toList) with
  hashType := some "t".toList, uhost := some "b!bob@h".toList }

def annAgain : User := { ann with passhash := some "told".toList, hashType := some "t".toList }

def twoChanges : List Change := [.login 0 "old".toList,.op (.hello (some ⟨none,some "bob".toList,some "b".toList,some "h".toList⟩))]

end Trollbot.Privileges
