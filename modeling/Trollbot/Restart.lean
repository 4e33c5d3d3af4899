import Trollbot.HashText
import Trollbot.Privileges
import Trollbot.UserFile

-- A bot that is stopped and started again: its user file holds what has happened to its users.
namespace Trollbot.Restart
open Users Runs Privileges Passwords DccLogin
open Tconfig (Plain text save_text save_nil)
open IrcParse hiding Plain

-- A record that the file holds whole.
structure Filed (user : User) : Prop where
  username : Plain user.username
  fields : ∀ value, some value ∈ fields user → Plain value
  flags : user.flags ≠ none
  realname : user.realname = none

-- No record is out of the reach of net->users, from which they are saved.
structure Stored (users : Chain User) : Prop where
  unique : Unique users
  filed : ∀ user ∈ users.whole, Filed user
  reached : users.behind = []

structure Configured (g : Setting) (defaultFlags : Option Str) : Prop where
  flags : ∃ own, defaultFlags = some own ∧ Plain own
  hashType : ∀ type, g.hashType = some type → Plain type
  createHash : ∀ create, g.createHash = some create → ∃ sha512, create = Crypto.createHash sha512

-- The texts that a change brings from the server or from a script.
def words : Change → List (Option Str)
  | .op (.hello (some pre)) => [pre.nick,pre.user,pre.host]
  | .op (.adduser username hostmask chans) => username :: hostmask :: chans.flatten.flatMap (fun cuser => [cuser.nick,cuser.ident,cuser.host])
  | .op (.chhandle _ new) => [new]
  | _ => []

-- No text has a quotation mark. Nothing writes the realname of somebody on a channel. The first record or the second one is deleted:
-- a later one takes those before it with it.
structure Neat (users : Chain User) (event : Change) : Prop where
  plain : ∀ word, some word ∈ words event → Plain word
  allowed : ∀ op, event = .op op → Allowed users op
  realname : ∀ username hostmask chans, event = .op (.adduser username hostmask chans) → ∀ cuser ∈ chans.flatten, cuser.realname = none
  early : ∀ username place, event = .op (.deluser (some username)) → findUser users username = some place → place ≤ 1

theorem plain_append {s t : Str} (plain : Plain s) (plain' : ∀ c ∈ t, c ≠ CBuffer.nul ∧ c ≠ '\r' ∧ c ≠ '\n' ∧ c ≠ '"') : Plain (s ++ t) := by
  refine ⟨by simp [plain.1],?_⟩
  intro c member
  rcases List.mem_append.mp member with first | second
  · exact plain.2 c first
  · exact plain' c second

theorem plain_mask {ident nick host : Str} (plain : Plain ident) (plain' : Plain nick) (plain'' : Plain host) :
    Plain (ident ++ '!' :: nick ++ '@' :: host) := by
  refine plain_append (plain_append plain ?_) ?_
  · intro c member
    rcases List.mem_cons.mp member with rfl | inside
    · decide
    · exact plain'.2 c inside
  · intro c member
    rcases List.mem_cons.mp member with rfl | inside
    · decide
    · exact plain''.2 c inside

-- Hexadecimal digits, at least one for the first byte.
theorem hash_plain {sha512 : Str → Crypto.Digest} {pass hashType hash : Str} (made : Crypto.createHash sha512 pass hashType = some hash) : Plain hash := by
  unfold Crypto.createHash at made
  split at made
  · rw [(Crypto.hashString_digits _).1] at made
    cases made
    have digit : ∀ n < 16, Crypto.hexDigit n ≠ CBuffer.nul ∧ Crypto.hexDigit n ≠ '\r' ∧ Crypto.hexDigit n ≠ '\n' ∧ Crypto.hexDigit n ≠ '"' := by
      decide
    obtain ⟨bytes,long⟩ := sha512 pass
    constructor
    · cases bytes with
      | nil => simp at long
      | cons first rest =>
          unfold Crypto.digits Crypto.shown
          rw [List.flatMap_cons]
          split <;> simp
    · intro c member
      obtain ⟨n,inside,rfl⟩ := List.mem_map.mp member
      obtain ⟨byte,-,shown⟩ := List.mem_flatMap.mp inside
      exact digit n (Crypto.shown_small byte n shown)
  · cases made

theorem found_seen {userList : List Seen} (found : findSeen username userList = some (some cuser)) : cuser ∈ userList := by
  induction userList with
  | nil => cases found
  | cons first rest ih =>
      rw [findSeen] at found
      obtain ⟨nick,-,found⟩ := Option.bind_eq_some_iff.mp found
      split at found
      · cases found
        exact List.mem_cons_self
      · exact List.mem_cons_of_mem _ (ih found)

theorem searched_seen {chans : List (List Seen)} (found : searchChans username chans = some (some cuser)) : cuser ∈ chans.flatten := by
  induction chans with
  | nil => cases found
  | cons userList rest ih =>
      cases rest with
      | nil =>
          rw [searchChans] at found
          simpa using found_seen found
      | cons chan rest =>
          rw [searchChans] at found
          obtain ⟨here,looked,found⟩ := Option.bind_eq_some_iff.mp found
          rw [List.flatten_cons,List.mem_append]
          cases here with
          | some other =>
              cases found
              exact .inl (found_seen looked)
          | none => exact .inr (ih found)

section
variable {g : Setting} {defaultFlags : Option Str} (configured : Configured g defaultFlags)
include configured

theorem made_plain {pass hash : Str} (made : configuredHash g pass = some hash) : Plain hash := by
  obtain ⟨type,-,made⟩ := Option.bind_eq_some_iff.mp made
  obtain ⟨create,loaded,created⟩ := Option.bind_eq_some_iff.mp made
  obtain ⟨sha512,rfl⟩ := configured.createHash create loaded
  exact hash_plain created

theorem new_filed {name : Str} (username : Plain name) (texts : ∀ value, some value ∈ [nick,ident,host,uhost,hashType] → Plain value) :
    Filed { newUser name nick none ident none host defaultFlags with hashType := hashType, uhost := uhost } := by
  obtain ⟨own,rfl,plain⟩ := configured.flags
  refine ⟨username,?_,nofun,rfl⟩
  intro value member
  simp only [fields,newUser,List.mem_cons,List.not_mem_nil,or_false,reduceCtorEq,false_or,Option.some.injEq] at member texts
  rcases member with nick' | ident' | host' | uhost' | type | rfl
  · exact texts value (.inl nick')
  · exact texts value (.inr (.inl ident'))
  · exact texts value (.inr (.inr (.inl host')))
  · exact texts value (.inr (.inr (.inr (.inl uhost'))))
  · exact texts value (.inr (.inr (.inr (.inr type))))
  · exact plain

theorem password_filed (filed : Filed user) (pass : Str) :
    Filed { user with passhash := configuredHash g pass, hashType := g.hashType } := by
  refine ⟨filed.username,?_,filed.flags,filed.realname⟩
  have texts := filed.fields
  intro value member
  simp only [fields,List.mem_cons,List.not_mem_nil,or_false] at member texts
  rcases member with nick | ident | host | uhost | console | realname | passhash | type | flags
  · exact texts value (.inl nick)
  · exact texts value (.inr (.inl ident))
  · exact texts value (.inr (.inr (.inl host)))
  · exact texts value (.inr (.inr (.inr (.inl uhost))))
  · exact texts value (.inr (.inr (.inr (.inr (.inl console)))))
  · exact texts value (.inr (.inr (.inr (.inr (.inr (.inl realname))))))
  · exact made_plain configured passhash.symm
  · exact configured.hashType value type.symm
  · exact texts value (.inr (.inr (.inr (.inr (.inr (.inr (.inr (.inr flags))))))))

theorem greeted_filed {nick ident host : Str} (nick' : Plain nick) (ident' : Plain ident) (host' : Plain host) :
    Filed (greeted defaultFlags g.hashType nick ident host) := by
  refine new_filed configured nick' ?_
  intro value member
  simp only [List.mem_cons,List.not_mem_nil,or_false,Option.some.injEq] at member
  rcases member with rfl | rfl | rfl | rfl | type
  · exact nick'
  · exact ident'
  · exact host'
  · exact plain_mask ident' nick' host'
  · exact configured.hashType value type.symm

theorem added_filed {name : Str} {cuser : Seen} (name' : Plain name) (hostmask' : ∀ mask, hostmask = some mask → Plain mask)
    (seen : ∀ value, some value ∈ [cuser.nick,cuser.ident,cuser.host] → Plain value) (realname : cuser.realname = none) :
    Filed (newUser name cuser.nick none cuser.ident cuser.realname (hostmask.or cuser.host) defaultFlags) := by
  rw [realname]
  refine new_filed configured name' ?_
  intro value member
  simp only [List.mem_cons,List.not_mem_nil,or_false,reduceCtorEq] at member seen
  rcases member with nick | ident | host
  · exact seen value (.inl nick)
  · exact seen value (.inr (.inl ident))
  · rcases Option.or_eq_some_iff.mp host.symm with given | ⟨-,known⟩
    · exact hostmask' value given
    · exact seen value (.inr (.inr known.symm))

-- A password that is set or converted leaves the usernames.
theorem set_stored (stored : Stored users) (here : users.items[place]? = some own) (pass : Str) :
    Stored { users with items := withPassword g users.items place own pass } := by
  refine ⟨?_,?_,stored.reached⟩
  · have named : (names users.items)[place]? = some (fold own.username) := by simp [names,here]
    obtain ⟨inside,same⟩ := List.getElem?_eq_some_iff.mp named
    have kept : (names users.items).set place (fold own.username) = names users.items := by rw [← same,List.set_getElem_self]
    have unique : (names users.items).Nodup := stored.unique
    rw [← kept] at unique
    rw [Users.Unique,names,withPassword,List.map_set]
    exact unique
  · intro user member
    rcases List.mem_append.mp member with behind | inside
    · exact stored.filed user (List.mem_append_left _ behind)
    · rcases List.mem_or_eq_of_mem_set inside with old | rfl
      · exact stored.filed user (List.mem_append_right _ old)
      · exact password_filed configured (stored.filed own (List.mem_append_right _ (List.mem_of_getElem? here))) pass

-- What a hello or a script writes into a record can be written to the file.
theorem op_filed (filed : ∀ user ∈ users.whole, Filed user) (neat : Neat users (.op op))
    (done : step defaultFlags g.hashType save users op = some later) (member : user ∈ later.whole) : Filed user := by
  have plain := neat.plain
  cases op with
  | hello pre =>
      rcases hello_member done member with old | ⟨p,nick,ident,host,rfl,nick',ident',host',rfl⟩
      · exact filed user old
      · refine greeted_filed configured (plain nick ?_) (plain ident ?_) (plain host ?_)
        · simp [words,nick']
        · simp [words,ident']
        · simp [words,host']
  | adduser username hostmask chans =>
      obtain ⟨⟨next,added⟩,ran,same⟩ := Option.map_eq_some_iff.mp done
      cases same
      rcases adduser_member ran member with old | ⟨name,rfl,rfl | ⟨cuser,searched,rfl⟩⟩
      · exact filed user old
      · refine new_filed configured (plain name (by simp [words])) ?_
        intro value inside
        simp only [List.mem_cons,List.not_mem_nil,or_false,reduceCtorEq,Option.some.injEq,false_or] at inside
        rcases inside with rfl | host
        · exact plain value (by simp [words])
        · exact plain value (by simp [words,host])
      · have inside := searched_seen searched
        refine added_filed configured (plain name (by simp [words])) ?_ ?_ (neat.realname _ _ _ rfl cuser inside)
        · rintro mask rfl
          exact plain mask (by simp [words])
        · intro value here
          refine plain value (List.mem_cons_of_mem _ (List.mem_cons_of_mem _ ?_))
          exact List.mem_flatMap.mpr ⟨cuser,inside,here⟩
  | deluser username =>
      cases done
      exact filed user (deluser_member member)
  | chhandle old new =>
      cases done
      rcases chhandle_member member with there | ⟨first,there,name,rfl,rfl,rfl⟩
      · exact filed user there
      · have before := filed first there
        exact ⟨plain name (by simp [words]),before.fields,before.flags,before.realname⟩

-- And leaves no record behind net->users.
omit configured in
theorem op_reached (reached : users.behind = []) (neat : Neat users (.op op)) (done : step defaultFlags g.hashType save users op = some later) :
    later.behind = [] := by
  cases op with
  | hello pre =>
      obtain ⟨p,-,done⟩ := Option.bind_eq_some_iff.mp done
      obtain ⟨nick,-,done⟩ := Option.bind_eq_some_iff.mp done
      cases walk : walkTo nick users.items with
      | none =>
          rw [walk] at done
          obtain ⟨ident,-,done⟩ := Option.bind_eq_some_iff.mp done
          obtain ⟨host,-,done⟩ := Option.bind_eq_some_iff.mp done
          cases done
          rfl
      | some stop =>
          rw [walk] at done
          obtain ⟨own,-,done⟩ := Option.bind_eq_some_iff.mp done
          split at done
          · cases done
            exact reached
          · obtain ⟨ident,-,done⟩ := Option.bind_eq_some_iff.mp done
            obtain ⟨host,-,done⟩ := Option.bind_eq_some_iff.mp done
            cases done
            exact reached
  | adduser username hostmask chans =>
      obtain ⟨⟨next,added⟩,ran,same⟩ := Option.map_eq_some_iff.mp done
      cases same
      unfold eggAdduser at ran
      split at ran
      · cases ran
        exact reached
      split at ran
      · cases ran
        exact reached
      · obtain ⟨cuser,-,ran⟩ := Option.bind_eq_some_iff.mp ran
        obtain ⟨_,-,ran⟩ := Option.bind_eq_some_iff.mp ran
        cases ran
        unfold Chain.add
        split
        · rfl
        · exact reached
  | deluser username =>
      cases done
      unfold eggDeluser
      split
      · exact reached
      · split
        · exact reached
        · rename_i place found
          have early : place ≤ 1 := neat.early _ place rfl found
          have unlinks : users.Unlinks place := by
            rcases Nat.le_one_iff_eq_zero_or_eq_one.mp early with rfl | rfl
            · exact .inr ⟨rfl,reached⟩
            · exact .inl rfl
          exact Chain.del_behind unlinks reached
  | chhandle old new =>
      cases done
      unfold eggChhandle
      split
      · exact reached
      · exact reached
      · exact reached
      split
      · exact reached
      split
      · exact reached
      · exact reached

theorem change_stored (stored : Stored users) (neat : Neat users event) (done : change g defaultFlags users event = some later) : Stored later := by
  cases event with
  | op op =>
      exact ⟨(step_exact stored.unique done).mpr (neat.allowed op rfl),fun user member => op_filed configured stored.filed neat done member,
        op_reached stored.reached neat done⟩
  | pass data =>
      obtain ⟨⟨saved,lines⟩,ran,done⟩ := Option.bind_eq_some_iff.mp done
      obtain ⟨items,rfl,done⟩ := Option.bind_eq_some_iff.mp done
      cases done
      rcases newUserPass_cases ran with rfl | ⟨place,own,pass,here,rfl⟩
      · exact stored
      · exact set_stored configured stored here pass
  | login place buffer =>
      obtain ⟨⟨next,replies⟩,ran,rfl⟩ := Option.map_eq_some_iff.mp done
      rcases login_cases ran with same | ⟨own,here,set⟩
      · rw [same]
        exact stored
      · rw [set]
        exact set_stored configured stored here buffer

theorem run_stored (stored : Stored users) (neat : Meets (change g defaultFlags) Neat users changes)
    (ran : run (change g defaultFlags) users changes = some later) : Stored later := by
  induction changes generalizing users with
  | nil =>
      cases ran
      exact stored
  | cons event rest ih =>
      obtain ⟨next,done,more⟩ := Option.bind_eq_some_iff.mp ran
      exact ih (change_stored configured stored neat.1 done) (neat.2 next done) more

end

-- The records that are stored go through the file; without one, the file is not written at all.
theorem stored_reload (stored : Stored users) (file : Option Str) :
    ∃ after, (∀ next, usersSave users.items file next ↔ next = after) ∧ (users.items = [] → after = file) ∧
      (users.items ≠ [] → ∀ loaded, usersLoad after loaded ↔ loaded = users.items) := by
  by_cases none' : users.items = []
  · refine ⟨file,?_,fun _ => rfl,fun some' => absurd none' some'⟩
    intro next
    rw [none']
    exact save_nil file next
  · have filed : ∀ user ∈ users.items, Filed user := fun user member => stored.filed user (List.mem_append_right _ member)
    have writable : ∀ user ∈ users.items, Writable user := fun user member => .inl (filed user member).flags
    have legible : ∀ user ∈ users.items, Tconfig.Legible user.username := fun user member => (filed user member).username.legible
    have distinct : (users.items.map User.username).Nodup := by
      have unique : (users.items.map (fun user => fold user.username)).Nodup := stored.unique
      refine List.Nodup.of_map fold ?_
      rwa [List.map_map]
    have plain : ∀ user ∈ users.items, ∀ value, some value ∈ fields user → Plain value := fun user member => (filed user member).fields
    refine ⟨some (text 0 (usersToTconfig users.items)),save_text (users_filled _ writable) (users_blocks none') file,
      fun none'' => absurd none'' none',?_⟩
    intro some' loaded
    have kept : users.items.map saved = users.items :=
      saved_all.mpr fun user member => (saved_same (writable user member)).mpr ⟨(filed user member).realname,.inl (filed user member).flags⟩
    have reload := load_saved distinct plain some' writable legible loaded
    rwa [kept] at reload

theorem Stored.records (stored : Stored users) : records users = users.items := by
  simp [Privileges.records,Chain.inOrder,stored.reached]

-- Ann says hello, sets her password and is renamed.
def zeros : Crypto.Digest := ⟨List.replicate 64 0,by simp⟩

def hashing : Setting :=
  ⟨some "sha512".toList,some (Crypto.createHash (fun _ => zeros)),some "users".toList,none,none,fun _ => none,fun users _ => some users⟩

def annPrefix : IrcPrefix := ⟨none,some "ann".toList,some "a".toList,some "h".toList⟩

def annPass : IrcData := ⟨some annPrefix,"PRIVMSG".toList,none,none,some [some (some "pass".toList),some (some "x".toList)],none⟩

def annNew : User := greeted (some "p".toList) (some "sha512".toList) "ann".toList "a".toList "h".toList

def annNamed : User := { annNew with passhash := configuredHash hashing "x".toList, hashType := hashing.hashType }

def amy : User := { annNamed with username := "amy".toList }

def annChanges : List Change := [.op (.hello (some annPrefix)),.pass annPass,.op (.chhandle (some "ann".toList) (some "amy".toList))]

theorem hashing_configured : Configured hashing (some "p".toList) := by
  refine ⟨⟨_,rfl,?_⟩,?_,?_⟩
  · unfold Plain
    decide
  · rintro type ⟨⟩
    unfold Plain
    decide
  · rintro create ⟨⟩
    exact ⟨_,rfl⟩

theorem ann_hello : change hashing (some "p".toList) .empty (.op (.hello (some annPrefix))) = some ⟨[],[annNew]⟩ := rfl

theorem ann_pass : change hashing (some "p".toList) ⟨[],[annNew]⟩ (.pass annPass) = some ⟨[],[annNamed]⟩ := by
  have found : [annNew].findIdx? (fun user => user.nick = some "ann".toList) = some 0 := rfl
  have unset : ¬annNew.passhash ≠ none := not_not_intro rfl
  have first : [annNew][0]? = some annNew := rfl
  have writable : ∀ other ∈ withPassword hashing [annNew] 0 annNew "x".toList, Writable other :=
    (writable_withPassword first (by decide)).mpr (by decide)
  have saves : usersSaves hashing.userfile (withPassword hashing [annNew] 0 annNew "x".toList) = some () :=
    if_pos ⟨by simp [hashing],writable⟩
  have set : newUserPass hashing [annNew] annPass = some (some [annNamed],[confirmation "ann".toList "x".toList]) := by
    simp only [newUserPass,Option.bind_eq_bind,Option.bind_some,annPass,annPrefix,found,first,if_neg unset]
    rw [show Irc.slot (some [some (some "pass".toList),some (some "x".toList)]) 1 = some (some "x".toList) from rfl]
    simp only [Option.bind_some,saves,Option.map_some]
    rfl
  rw [change,set]
  rfl

theorem ann_renamed : change hashing (some "p".toList) ⟨[],[annNamed]⟩ (.op (.chhandle (some "ann".toList) (some "amy".toList))) = some ⟨[],[amy]⟩ := by
  rfl

theorem ann_neat : Meets (change hashing (some "p".toList)) Neat .empty annChanges := by
  have texts : ∀ word ∈ ["ann".toList,"a".toList,"h".toList,"amy".toList], Plain word := by
    unfold Plain
    decide
  refine meets_taken ⟨?_,?_,nofun,nofun⟩ ann_hello (meets_taken ⟨nofun,nofun,nofun,nofun⟩ ann_pass
    (meets_taken ⟨?_,?_,nofun,nofun⟩ ann_renamed trivial))
  · intro word member
    have known : word = "ann".toList ∨ word = "a".toList ∨ word = "h".toList := by simpa [words,annPrefix] using member
    exact texts word (by rcases known with rfl | rfl | rfl <;> decide)
  · rintro op ⟨⟩ p nick - -
    exact .inr (by simp [names,Chain.empty])
  · intro word member
    have known : word = "amy".toList := by simpa [words] using member
    exact texts word (by rw [known]; decide)
  · rintro op ⟨⟩ old new ⟨⟩ ⟨⟩
    refine .inr (.inr ?_)
    intro user member other
    rw [List.mem_singleton.mp member] at other
    exact absurd rfl other

end Trollbot.Restart
