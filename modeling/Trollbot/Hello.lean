import Trollbot.Users

-- What a hello does to the list of user records.
namespace Trollbot.Users
open IrcParse Runs

def senderPrefix (nick ident host : Str) : IrcPrefix := ⟨none,some nick,some ident,some host⟩

def Taken (nick : Str) (items : List User) : Prop := ∃ user ∈ items, user.username = nick ∨ user.nick = some nick

-- The list is as it was where the name is taken, and has one more record at its end where it is not.
def HelloKept (defaultFlags hashType : Option Str) (users : Chain User) (op : Op) : Prop :=
  ∀ nick ident host, op = .hello (some (senderPrefix nick ident host)) →
    ∃ next, introduceUser defaultFlags hashType users (some (senderPrefix nick ident host)) = some next ∧
      (Taken nick users.items → next.items = users.items) ∧
      (¬Taken nick users.items → ∃ user, next.items = users.items ++ [user] ∧ user.username = nick ∧ user.nick = some nick)

-- The record that the search ends at.
def searchEnd (nick : Str) (items : List User) : Option User :=
  (items.find? (fun user => user.username = nick)).or items.getLast?

-- That record has a nick, and it is the senderPrefix's or nobody has the senderPrefix's name.
def HelloFits (users : Chain User) (op : Op) : Prop :=
  ∀ nick ident host, op = .hello (some (senderPrefix nick ident host)) →
    ∀ user, searchEnd nick users.items = some user → ∃ own, user.nick = some own ∧ (own = nick ∨ ¬Taken nick users.items)

theorem walkTo_searchEnd (nick : Str) (items : List User) : (walkTo nick items).map Prod.snd = searchEnd nick items := by
  induction items with
  | nil => rfl
  | cons user items ih =>
      cases items with
      | nil =>
          by_cases here : user.username = nick
          · simp [walkTo,searchEnd,here]
          · simp [walkTo,searchEnd,here]
      | cons next rest =>
          by_cases here : user.username = nick
          · simp [walkTo,searchEnd,here]
          · have later : (walkTo nick (next :: rest)).map Prod.snd = (walkTo nick (user :: next :: rest)).map Prod.snd := by
              rw [walkTo,if_neg here,Option.map_map]
              rfl
            rw [← later,ih]
            simp [searchEnd,here]

-- Where nobody has the name the search has seen the whole list.
theorem walkTo_last (walk : walkTo nick items = some (before,last)) (new : ¬Taken nick items) : items = before ++ [last] := by
  rcases walkTo_parts walk with ⟨rest,parts,named⟩ | parts
  · exact absurd ⟨last,by rw [parts]; simp,.inl named⟩ new
  · exact parts

theorem walkTo_member (walk : walkTo nick items = some (before,last)) : last ∈ items := by
  rcases walkTo_parts walk with ⟨rest,parts,-⟩ | parts <;> rw [parts] <;> simp

section
variable {defaultFlags hashType : Option Str}

theorem hello_first (empty : users.items = []) (nick ident host : Str) :
    ∃ user, introduceUser defaultFlags hashType users (some (senderPrefix nick ident host)) = some ⟨[],[user]⟩ ∧
      user.username = nick ∧ user.nick = some nick ∧ user.uhost = some (ident ++ '!' :: nick ++ '@' :: host) := by
  refine ⟨{ newUser nick (some nick) none (some ident) none (some host) defaultFlags with
    hashType := hashType, uhost := some (ident ++ '!' :: nick ++ '@' :: host) },?_,rfl,rfl,rfl⟩
  simp [introduceUser,senderPrefix,empty,walkTo]

theorem hello_refused (walk : walkTo nick users.items = some (before,last)) (own : last.nick = some nick) (ident host : Str) :
    introduceUser defaultFlags hashType users (some (senderPrefix nick ident host)) = some users := by
  simp [introduceUser,senderPrefix,walk,own]

theorem hello_linked (walk : walkTo nick users.items = some (before,last)) (has : last.nick = some own) (differs : own ≠ nick)
    (ident host : Str) : ∃ user, introduceUser defaultFlags hashType users (some (senderPrefix nick ident host)) =
      some ⟨users.behind,before ++ [last,user]⟩ ∧ user.username = nick ∧ user.nick = some nick ∧
      user.uhost = some (ident ++ '!' :: nick ++ '@' :: host) := by
  refine ⟨{ newUser nick (some nick) none (some ident) none (some host) defaultFlags with
    hashType := hashType, uhost := some (ident ++ '!' :: nick ++ '@' :: host) },?_,rfl,rfl,rfl⟩
  simp [introduceUser,senderPrefix,walk,has,differs]

theorem fits_kept (fits : HelloFits users op) : HelloKept defaultFlags hashType users op := by
  intro nick ident host hello
  cases walk : walkTo nick users.items with
  | none =>
      have empty := walkTo_none walk
      obtain ⟨user,done,named,called,-⟩ := hello_first empty nick ident host
      refine ⟨_,done,?_,fun _ => ⟨user,by rw [empty]; rfl,named,called⟩⟩
      rintro ⟨other,member,-⟩
      rw [empty] at member
      cases member
  | some stop =>
      obtain ⟨before,last⟩ := stop
      have ends : searchEnd nick users.items = some last := by rw [← walkTo_searchEnd,walk]; rfl
      obtain ⟨own,has,free⟩ := fits nick ident host hello last ends
      by_cases refused : own = nick
      · subst refused
        have taken : Taken own users.items := ⟨last,walkTo_member walk,.inr has⟩
        exact ⟨users,hello_refused walk has ident host,fun _ => rfl,fun new => absurd taken new⟩
      · have new := free.resolve_left refused
        obtain ⟨user,done,named,called,-⟩ := hello_linked walk has refused ident host
        refine ⟨_,done,fun taken => absurd taken new,fun _ => ⟨user,?_,named,called⟩⟩
        rw [walkTo_last walk new,List.append_assoc]
        rfl

end

-- Over any run of hellos, additions, deletions and renamings, from any list.
theorem hello_adds (defaultFlags hashType : Option Str) (save : List User → Option Unit) (users : Chain User) (ops : List Op)
    (fits : Meets (step defaultFlags hashType save) HelloFits users ops) :
    Meets (step defaultFlags hashType save) (HelloKept defaultFlags hashType) users ops :=
  meets_weaker (fun _ _ => fits_kept) fits

def saysHello (nick : Str) : Op := .hello (some (senderPrefix nick ['u'] ['h']))

theorem two_hellos : Meets (step none none (fun _ => some ())) (HelloKept none none) .empty [saysHello ['a'],saysHello ['b']] := by
  apply hello_adds
  refine ⟨?_,fun one first => ⟨?_,fun _ _ => trivial⟩⟩
  · intro nick ident host _ user ends
    cases ends
  · cases first
    intro nick ident host same user ends
    cases same
    cases ends
    exact ⟨['a'],rfl,.inr (by unfold Taken; decide)⟩

-- Ann is renamed to carl; carl says hello, and bob is lost.
theorem hello_loses_bob : ¬Meets (step none none (fun _ => some ())) (HelloKept none none) .empty
    [saysHello ['a'],saysHello ['b'],.chhandle (some ['a']) (some ['c']),saysHello ['c']] := by
  intro meets
  obtain ⟨-,meets⟩ := meets.2 _ rfl
  obtain ⟨-,meets⟩ := meets _ rfl
  obtain ⟨kept,-⟩ := meets _ rfl
  obtain ⟨next,done,same,-⟩ := kept ['c'] ['u'] ['h'] rfl
  have taken := same (by unfold Taken; decide)
  cases done
  revert taken
  decide

end Trollbot.Users
