import Trollbot.Foundation.Chain
import Trollbot.Foundation.Runs
import Trollbot.IrcParse
import Trollbot.User
import Mathlib.Data.List.Nodup

-- The user records of a network, and what creates, renames and deletes them.
namespace Trollbot.Users
open IrcParse Runs

-- What a channel knows about somebody on it.
structure Seen where
  nick : Option Str
  ident : Option Str
  host : Option Str
  realname : Option Str

-- To the first record with the username, or to the last one. The first part of the result is what is
-- before it.
def walkTo (nick : Str) : List User → Option (List User × User)
  | [] => none
  | [user] => some ([],user)
  | user :: next :: rest =>
    if user.username = nick then some ([],user)
    else (walkTo nick (next :: rest)).map (fun result => (user :: result.1,result.2))

section
variable (defaultFlags hashType : Option Str)

-- None is a crash. What is behind the record that the walk ends at is lost.
def introduceUser (users : Chain User) (pre : Option IrcPrefix) : Option (Chain User) := do
  let pre ← pre
  let nick ← pre.nick
  match walkTo nick users.items with
  | none => do
    let ident ← pre.user
    let host ← pre.host
    let user := newUser nick (some nick) none (some ident) none (some host) defaultFlags
    some ⟨[],[{ user with hashType := hashType, uhost := some (ident ++ '!' :: nick ++ '@' :: host) }]⟩
  | some (before,last) => do
    let own ← last.nick
    if own = nick then some users else do
    let ident ← pre.user
    let host ← pre.host
    let user := newUser nick (some nick) none (some ident) none (some host) defaultFlags
    some ⟨users.behind,before ++ [last,{ user with hashType := hashType, uhost := some (ident ++ '!' :: nick ++ '@' :: host) }]⟩

def findUser (users : Chain User) (username : Str) : Option Nat :=
  users.items.findIdx? (fun user => tstrcasecmp user.username username = 0)

-- The first one with the nick; the outer none is the read of a null nick.
def findSeen (username : Str) : List Seen → Option (Option Seen)
  | [] => some none
  | cuser :: rest => do
    let nick ← cuser.nick
    if tstrcasecmp username nick = 0 then some (some cuser) else findSeen username rest

-- Without a channel the variable that is tested afterwards has never been set.
def searchChans (username : Str) : List (List Seen) → Option (Option Seen)
  | [] => none
  | [userList] => findSeen username userList
  | userList :: chan :: rest => do
    match ← findSeen username userList with
    | some cuser => some (some cuser)
    | none => searchChans username (chan :: rest)

-- `save` stands for users_save, which leaves the records as they are.
def eggAdduser (save : List User → Option Unit) (chans : List (List Seen)) (users : Chain User)
    (username hostmask : Option Str) : Option (Chain User × Bool) :=
  match username with
  | none => some (users,false)
  | some username =>
    if (findUser users username).isSome then some (users,false) else do
    let cuser ← searchChans username chans
    let user := match cuser with
      | none => newUser username (some username) none none none hostmask defaultFlags
      | some cuser => newUser username cuser.nick none cuser.ident cuser.realname (hostmask.or cuser.host) defaultFlags
    save (users.add user).items
    some (users.add user,true)

def eggDeluser (users : Chain User) (username : Option Str) : Chain User × Bool :=
  match username with
  | none => (users,false)
  | some username =>
    match findUser users username with
    | none => (users,false)
    | some place => (users.del place,true)

-- Of several records with the name the last one is renamed.
def renameLast (old new : Str) : List User → List User
  | [] => []
  | user :: rest =>
    if user.username = old ∧ ∀ other ∈ rest, other.username ≠ old then { user with username := new } :: rest
    else user :: renameLast old new rest

def eggChhandle (users : Chain User) (old new : Option Str) : Chain User × Bool :=
  match users.items,old,new with
  | [],_,_ => (users,false)
  | _,none,_ => (users,false)
  | _,_,none => (users,false)
  | items,some old,some new =>
    if ∃ user ∈ items, user.username = new then (users,false)
    else if ∃ user ∈ items, user.username = old then ({ users with items := renameLast old new items },true)
    else (users,false)

inductive Op where
  | hello (pre : Option IrcPrefix)
  | adduser (username hostmask : Option Str) (chans : List (List Seen))
  | deluser (username : Option Str)
  | chhandle (old new : Option Str)

def step (save : List User → Option Unit) (users : Chain User) : Op → Option (Chain User)
  | .hello pre => introduceUser defaultFlags hashType users pre
  | .adduser username hostmask chans => (eggAdduser defaultFlags save chans users username hostmask).map Prod.fst
  | .deluser username => some (eggDeluser users username).1
  | .chhandle old new => some (eggChhandle users old new).1

end

def names (items : List User) : List Str := items.map (fun user => fold user.username)

-- No two usernames are equal ignoring case.
def Unique (users : Chain User) : Prop := (names users.items).Nodup

-- A hello is refused or comes with a new name; a renamed record gets a name that no other one has
-- ignoring case; and a deletion does not bring a record back whose name is taken.
def Allowed (users : Chain User) : Op → Prop
  | .hello pre => ∀ p nick, pre = some p → p.nick = some nick →
      (∃ before user, walkTo nick users.items = some (before,user) ∧ user.nick = some nick) ∨ fold nick ∉ names users.items
  | .adduser .. => True
  | .deluser username => ∀ name first rest last more, username = some name → users.items = first :: rest →
      users.behind = last :: more → fold first.username = fold name → fold last.username ∉ names rest
  | .chhandle old new => ∀ a b, old = some a → new = some b → (∀ user ∈ users.items, user.username ≠ a) ∨
      (∃ user ∈ users.items, user.username = b) ∨ ∀ user ∈ users.items, user.username ≠ a → fold user.username ≠ fold b

theorem walkTo_parts (walk : walkTo nick items = some (before,last)) :
    (∃ rest, items = before ++ last :: rest ∧ last.username = nick) ∨ items = before ++ [last] := by
  induction items generalizing before last with
  | nil => cases walk
  | cons user items ih =>
      cases items with
      | nil =>
          cases walk
          exact .inr rfl
      | cons next rest =>
          unfold walkTo at walk
          by_cases here : user.username = nick
          · rw [if_pos here] at walk
            cases walk
            exact .inl ⟨next :: rest,rfl,here⟩
          · rw [if_neg here] at walk
            obtain ⟨⟨before',last'⟩,walked,same⟩ := Option.map_eq_some_iff.mp walk
            cases same
            rcases ih walked with ⟨more,parts,named⟩ | parts
            · exact .inl ⟨more,by rw [parts]; rfl,named⟩
            · exact .inr (by rw [parts]; rfl)

theorem walkTo_none (walk : walkTo nick items = none) : items = [] := by
  induction items with
  | nil => rfl
  | cons user items ih =>
      cases items with
      | nil => cases walk
      | cons next rest =>
          unfold walkTo at walk
          split at walk
          · cases walk
          · cases ih (Option.map_eq_none_iff.mp walk)

theorem unique_added (unique : (names items).Nodup) (user : User) :
    (names (items ++ [user])).Nodup ↔ fold user.username ∉ names items := by
  simp only [names,List.map_append,List.map_cons,List.map_nil,List.nodup_append] at unique ⊢
  constructor
  · rintro ⟨-,-,apart⟩ member
    exact apart _ member _ List.mem_cons_self rfl
  · intro new
    refine ⟨unique,by simp,?_⟩
    intro a member b last same
    rw [List.mem_singleton] at last
    exact new (by rw [← last,← same]; exact member)

theorem hello_exact (unique : Unique users) (done : introduceUser defaultFlags hashType users pre = some next) :
    Unique next ↔ Allowed users (.hello pre) := by
  cases pre with
  | none => cases done
  | some pre =>
      obtain ⟨servername,nick,ident,host⟩ := pre
      cases nick with
      | none => cases done
      | some nick =>
          have allowed : Allowed users (.hello (some ⟨servername,some nick,ident,host⟩)) ↔
              (∃ before user, walkTo nick users.items = some (before,user) ∧ user.nick = some nick) ∨ fold nick ∉ names users.items := by
            constructor
            · exact fun allows => allows _ nick rfl rfl
            · intro allows p nick' same named
              cases same
              cases named
              exact allows
          rw [allowed]
          simp only [introduceUser,Option.bind_eq_bind,Option.bind_some] at done
          cases walk : walkTo nick users.items with
          | none =>
              have empty := walkTo_none walk
              rw [walk] at done
              obtain ⟨ident,-,done⟩ := Option.bind_eq_some_iff.mp done
              obtain ⟨host,-,done⟩ := Option.bind_eq_some_iff.mp done
              cases done
              simp [Unique,names,empty]
          | some stop =>
              obtain ⟨before,last⟩ := stop
              rw [walk] at done
              obtain ⟨own,named,done⟩ := Option.bind_eq_some_iff.mp done
              by_cases refused : own = nick
              · rw [if_pos refused] at done
                cases done
                exact iff_of_true unique (.inl ⟨before,last,rfl,by rw [named,refused]⟩)
              · rw [if_neg refused] at done
                obtain ⟨ident,-,done⟩ := Option.bind_eq_some_iff.mp done
                obtain ⟨host,-,done⟩ := Option.bind_eq_some_iff.mp done
                cases done
                have here : ¬∃ first user, some (before,last) = some (first,user) ∧ user.nick = some nick := by
                  rintro ⟨first,user,same,own'⟩
                  cases same
                  rw [named,Option.some.injEq] at own'
                  exact refused own'
                rw [or_iff_right here]
                rcases walkTo_parts walk with ⟨rest,parts,same⟩ | parts
                · rw [parts]
                  simp [Unique,names,newUser,same,List.nodup_append]
                · have apart : (names users.items).Nodup := unique
                  have added := unique_added apart
                    { newUser nick (some nick) none (some ident) none (some host) defaultFlags with
                      hashType := hashType, uhost := some (ident ++ '!' :: nick ++ '@' :: host) }
                  rw [parts,List.append_assoc] at added
                  rw [parts]
                  exact added

theorem find_none (absent : findUser users username = none) : fold username ∉ names users.items := by
  intro member
  obtain ⟨user,inside,same⟩ := List.mem_map.mp member
  have misses := List.findIdx?_eq_none_iff.mp absent user inside
  simp [same] at misses

theorem adduser_unique (unique : Unique users) (done : eggAdduser defaultFlags save chans users username hostmask = some (next,added)) :
    Unique next := by
  unfold eggAdduser at done
  cases username with
  | none =>
      cases done
      exact unique
  | some username =>
      cases found : findUser users username with
      | some place =>
          simp only [found,Option.isSome_some,if_true] at done
          cases done
          exact unique
      | none =>
          simp only [found,Option.isSome_none,Bool.false_eq_true,if_false] at done
          obtain ⟨cuser,-,done⟩ := Option.bind_eq_some_iff.mp done
          obtain ⟨-,-,done⟩ := Option.bind_eq_some_iff.mp done
          cases done
          rw [Unique,Chain.add_items]
          refine (unique_added unique _).mpr ?_
          cases cuser <;> exact find_none found

theorem deluser_exact (unique : Unique users) : Unique (eggDeluser users username).1 ↔ Allowed users (.deluser username) := by
  cases username with
  | none =>
      refine iff_of_true unique ?_
      intro name first rest last more given
      cases given
  | some username =>
      cases found : findUser users username with
      | none =>
          simp only [eggDeluser,found]
          refine iff_of_true unique ?_
          intro name first rest last more given items _ named
          cases given
          refine absurd ?_ (find_none found)
          simp [names,items,named]
      | some place =>
          simp only [eggDeluser,found]
          cases items : users.items with
          | nil => simp [findUser,items] at found
          | cons first rest =>
              simp only [findUser,items,List.findIdx?_cons] at found
              rw [Unique,items] at unique
              have tail : (names rest).Nodup := (List.nodup_cons.mp unique).2
              by_cases here : tstrcasecmp first.username username = 0
              · simp only [here,decide_true,if_true,Option.some.injEq] at found
                subst found
                rw [tstrcasecmp_iff] at here
                cases behind : users.behind with
                | nil =>
                    simp only [Unique,Chain.del,behind,items,List.tail_cons]
                    refine iff_of_true tail ?_
                    intro name first' rest' last more _ _ behind'
                    rw [behind] at behind'
                    cases behind'
                | cons last more =>
                    simp only [Unique,Chain.del,behind,items,List.tail_cons]
                    constructor
                    · intro kept name first' rest' last' more' given items' behind' _
                      cases given
                      rw [items] at items'
                      rw [behind] at behind'
                      cases items'
                      cases behind'
                      exact (List.nodup_cons.mp kept).1
                    · intro allows
                      exact List.nodup_cons.mpr ⟨allows username first rest last more rfl items behind here,tail⟩
              · simp only [here,decide_false,Bool.false_eq_true,if_false] at found
                obtain ⟨before,-,rfl⟩ := Option.map_eq_some_iff.mp found
                refine iff_of_true ?_ ?_
                · have fewer := (Chain.del_sublist users before).map (fun user => fold user.username)
                  rw [items] at fewer
                  exact List.Nodup.sublist fewer unique
                · intro name first' rest' last more given items' _ named
                  cases given
                  rw [items] at items'
                  cases items'
                  rw [tstrcasecmp_iff] at here
                  exact absurd named here

theorem rename_parts (unique : (names items).Nodup) (there : ∃ user ∈ items, user.username = old) (new : Str) :
    ∃ before user after, items = before ++ user :: after ∧ user.username = old ∧
      renameLast old new items = before ++ { user with username := new } :: after := by
  induction items with
  | nil =>
      obtain ⟨user,member,-⟩ := there
      cases member
  | cons user rest ih =>
      obtain ⟨apart,unique⟩ := List.nodup_cons.mp unique
      by_cases here : user.username = old
      · have last : ∀ other ∈ rest, other.username ≠ old := by
          intro other member same
          exact apart (List.mem_map.mpr ⟨other,member,congrArg fold (same.trans here.symm)⟩)
        exact ⟨[],user,rest,rfl,here,if_pos ⟨here,last⟩⟩
      · obtain ⟨other,member,same⟩ := there
        have later : other ∈ rest := by
          rcases List.mem_cons.mp member with rfl | inside
          · exact absurd same here
          · exact inside
        obtain ⟨before,found,after,parts,named,renamed⟩ := ih unique ⟨other,later,same⟩
        refine ⟨user :: before,found,after,by rw [parts]; rfl,named,?_⟩
        rw [renameLast,if_neg (fun both => here both.1),renamed]
        rfl

theorem rename_exact (unique : (names items).Nodup) (there : ∃ user ∈ items, user.username = old) :
    (names (renameLast old new items)).Nodup ↔ ∀ user ∈ items, user.username ≠ old → fold user.username ≠ fold new := by
  obtain ⟨before,user,after,rfl,named,renamed⟩ := rename_parts unique there new
  rw [renamed]
  have middle : ∀ user : User, (names (before ++ user :: after)).Nodup ↔
      fold user.username ∉ names (before ++ after) ∧ (names (before ++ after)).Nodup := by
    intro user
    simp only [names,List.map_append,List.map_cons,List.nodup_middle,List.nodup_cons]
  obtain ⟨apart,rest⟩ := (middle user).mp unique
  rw [middle]
  constructor
  · rintro ⟨new',-⟩ other member different same
    refine new' (List.mem_map.mpr ⟨other,?_,same⟩)
    rw [List.mem_append,List.mem_cons] at member
    rcases member with early | rfl | later
    · exact List.mem_append_left _ early
    · exact absurd named different
    · exact List.mem_append_right _ later
  · intro differs
    refine ⟨?_,rest⟩
    intro taken
    obtain ⟨other,member,same⟩ := List.mem_map.mp taken
    refine differs other ?_ ?_ same
    · rcases List.mem_append.mp member with early | later
      · exact List.mem_append_left _ early
      · exact List.mem_append_right _ (List.mem_cons_of_mem _ later)
    · intro same'
      exact apart (List.mem_map.mpr ⟨other,member,congrArg fold (same'.trans named.symm)⟩)

theorem chhandle_exact (unique : Unique users) : Unique (eggChhandle users old new).1 ↔ Allowed users (.chhandle old new) := by
  cases items : users.items with
  | nil =>
      simp only [eggChhandle,items]
      exact iff_of_true unique (fun a b _ _ => .inl (by simp [items]))
  | cons first rest =>
      cases old with
      | none =>
          simp only [eggChhandle,items]
          exact iff_of_true unique (fun a b given => by cases given)
      | some old =>
          cases new with
          | none =>
              simp only [eggChhandle,items]
              exact iff_of_true unique (fun a b _ given => by cases given)
          | some new =>
              have allowed : Allowed users (.chhandle (some old) (some new)) ↔ (∀ user ∈ users.items, user.username ≠ old) ∨
                  (∃ user ∈ users.items, user.username = new) ∨
                  ∀ user ∈ users.items, user.username ≠ old → fold user.username ≠ fold new := by
                constructor
                · exact fun allows => allows old new rfl rfl
                · rintro allows a b ⟨⟩ ⟨⟩
                  exact allows
              rw [allowed]
              by_cases taken : ∃ user ∈ users.items, user.username = new
              · have same : (eggChhandle users (some old) (some new)).1 = users := by
                  rw [items] at taken
                  simp only [eggChhandle,items,taken,if_true]
                rw [same]
                exact iff_of_true unique (.inr (.inl taken))
              · by_cases there : ∃ user ∈ users.items, user.username = old
                · have same : (eggChhandle users (some old) (some new)).1.items = renameLast old new users.items := by
                    rw [items] at taken there
                    simp only [eggChhandle,items,taken,there,if_true,if_false]
                  have missing : ¬∀ user ∈ users.items, user.username ≠ old := by
                    obtain ⟨user,member,named⟩ := there
                    exact fun none => none user member named
                  rw [or_iff_right missing,or_iff_right taken,Unique,same]
                  exact rename_exact unique there
                · have same : (eggChhandle users (some old) (some new)).1 = users := by
                    rw [items] at taken there
                    simp only [eggChhandle,items,taken,there,if_false]
                  rw [same]
                  refine iff_of_true unique (.inl ?_)
                  intro user member named
                  exact there ⟨user,member,named⟩

theorem step_exact (unique : Unique users) (done : step defaultFlags hashType save users op = some next) :
    Unique next ↔ Allowed users op := by
  cases op with
  | hello pre => exact hello_exact unique done
  | adduser username hostmask chans =>
      obtain ⟨⟨next',added⟩,called,same⟩ := Option.map_eq_some_iff.mp done
      cases same
      exact iff_of_true (adduser_unique unique called) trivial
  | deluser username =>
      cases done
      exact deluser_exact unique
  | chhandle old new =>
      cases done
      exact chhandle_exact unique

theorem usernames_unique (defaultFlags hashType : Option Str) (save : List User → Option Unit) (users : Chain User)
    (ops : List Op) (unique : Unique users) :
    Along (step defaultFlags hashType save) (fun _ _ next => Unique next) users ops ↔
      Along (step defaultFlags hashType save) (fun before op _ => Allowed before op) users ops :=
  along_exact Unique (fun _ _ _ unique _ done => step_exact unique done) (fun _ _ _ _ _ _ still => still) unique (fun _ _ => trivial)

def ann : User := newUser "Ann".toList (some "Ann".toList) none (some "a".toList) none (some "h".toList) none

def bobAndDelete : List Op := [.hello (some ⟨none,some "Bob".toList,some "b".toList,some "h".toList⟩),.deluser (some "ann".toList)]

-- Bob says hello, and Ann is deleted.
theorem ann_and_bob :
    Along (step none none (fun _ => some ())) (fun before op _ => Allowed before op) ⟨[],[ann]⟩ bobAndDelete ∧
      Along (step none none (fun _ => some ())) (fun _ _ next => Unique next) ⟨[],[ann]⟩ bobAndDelete := by
  have allowed : Along (step none none (fun _ => some ())) (fun before op _ => Allowed before op) ⟨[],[ann]⟩ bobAndDelete := by
    intro next done
    refine ⟨?_,?_⟩
    · rintro p nick ⟨⟩ ⟨⟩
      exact .inr (by decide)
    · cases done
      intro last _
      refine ⟨?_,trivial⟩
      rintro name first rest old more ⟨⟩ ⟨⟩ ⟨⟩
  exact ⟨allowed,(usernames_unique none none (fun _ => some ()) ⟨[],[ann]⟩ bobAndDelete (by simp [Unique,names])).mpr allowed⟩

-- Somebody else says hello as ann.
theorem hello_twice : Unique ⟨[],[ann]⟩ ∧ ¬Along (step none none (fun _ => some ())) (fun _ _ next => Unique next) ⟨[],[ann]⟩
    [.hello (some ⟨none,some "ann".toList,some "x".toList,some "y".toList⟩)] := by
  refine ⟨by simp [Unique,names],?_⟩
  intro along
  exact absurd (along _ rfl).1 (by unfold Unique; decide)

end Trollbot.Users
