import Trollbot.Hello
import Trollbot.WildLanguage

-- Whether a user who said hello is found by the hostmask of the hello.
namespace Trollbot.Users
open Irc

-- troll_matchwilds answers 1 for a NULL uhost.
def matchesMask (mask : Str) (user : User) : Bool :=
  match user.uhost with
  | none => false
  | some uhost => decide (trollMatchwilds uhost mask = 0)

-- The place of the record, not the record.
def eggFinduser (users : Chain User) (mask : Str) : Option Nat := users.items.findIdx? (matchesMask mask)

def hostmask (nick ident host : Str) : Str := nick ++ '!' :: ident ++ '@' :: host

-- The record whose nick refuses a hello, where it has another one.
def Accepts (nick : Str) (items : List User) : Prop :=
  ∀ last, searchEnd nick items = some last → ∃ own, last.nick = some own ∧ own ≠ nick

-- Up to the first record with the username.
def searched (nick : Str) (items : List User) : List User :=
  items.take ((items.takeWhile (fun user => user.username ≠ nick)).length + 1)

-- A record is found, and it is the last one, the new one, when no other matches.
def FoundByMask (users : Chain User) (mask : Str) : Prop :=
  ∃ place, eggFinduser users mask = some place ∧
    ((∀ user ∈ users.items.dropLast, matchesMask mask user = false) → place + 1 = users.items.length)

theorem troll_plain (plain : ∀ c ∈ mask, ¬Wildcard c) : trollMatchwilds text mask = 0 ↔ text = mask := by
  induction mask generalizing text with
  | nil => cases text <;> simp [trollMatchwilds]
  | cons c mask ih =>
      have ordinary := plain c (by simp)
      simp only [Wildcard,not_or] at ordinary
      cases text with
      | nil => simp [trollMatchwilds,ordinary]
      | cons h text =>
          rw [troll_turn]
          simp only [ordinary,if_false]
          by_cases same : c = h
          · simpa [same] using ih (fun d member => plain d (by simp [member]))
          · simp [same,Ne.symm same]

theorem mask_iff (plain : ∀ c ∈ mask, ¬Wildcard c) (user : User) : matchesMask mask user = true ↔ user.uhost = some mask := by
  cases held : user.uhost with
  | none => simp [matchesMask,held]
  | some uhost => simp [matchesMask,held,troll_plain plain]

theorem walkTo_searched (walk : walkTo nick items = some (before,last)) : before ++ [last] = searched nick items := by
  induction items generalizing before last with
  | nil => cases walk
  | cons user items ih =>
      by_cases here : user.username = nick
      · cases items with
        | nil =>
            cases walk
            simp [searched,here]
        | cons next rest =>
            rw [walkTo,if_pos here] at walk
            cases walk
            simp [searched,here]
      · cases items with
        | nil =>
            cases walk
            simp [searched,here]
        | cons next rest =>
            rw [walkTo,if_neg here] at walk
            obtain ⟨⟨before',last'⟩,walked,same⟩ := Option.map_eq_some_iff.mp walk
            cases same
            have inner := ih walked
            rw [List.cons_append,inner]
            simp [searched,here]

theorem found_last (others : List User) (user : User) (behind : List User) (mask : Str) :
    FoundByMask ⟨behind,others ++ [user]⟩ mask ↔ (∃ other ∈ others, matchesMask mask other = true) ∨ matchesMask mask user = true := by
  unfold FoundByMask eggFinduser
  simp only [List.dropLast_concat,List.length_append,List.length_singleton]
  constructor
  · rintro ⟨place,found,-⟩
    obtain ⟨inside,hit,-⟩ := List.findIdx?_eq_some_iff_getElem.mp found
    have member := List.getElem_mem inside
    rcases List.mem_append.mp member with early | last
    · exact .inl ⟨_,early,hit⟩
    · rw [List.mem_singleton.mp last] at hit
      exact .inr hit
  · intro hits
    by_cases early : ∃ other ∈ others, matchesMask mask other = true
    · obtain ⟨other,member,hit⟩ := early
      have some' : ((others ++ [user]).findIdx? (matchesMask mask)).isSome := by
        rw [List.findIdx?_isSome,List.any_eq_true]
        exact ⟨other,by simp [member],hit⟩
      obtain ⟨place,found⟩ := Option.isSome_iff_exists.mp some'
      refine ⟨place,found,fun none' => ?_⟩
      rw [none' other member] at hit
      cases hit
    · have last := hits.resolve_left early
      have misses : ∀ other ∈ others, matchesMask mask other = false := by
        intro other member
        by_contra hit
        exact early ⟨other,member,by simpa using hit⟩
      refine ⟨others.length,?_,fun _ => rfl⟩
      rw [List.findIdx?_append,List.findIdx?_eq_none_iff.mpr misses]
      simp [last]

theorem stored_matches (nick ident host : Str) :
    ident ++ '!' :: nick ++ '@' :: host = hostmask nick ident host ↔ ident ++ '!' :: nick = nick ++ '!' :: ident := by
  unfold hostmask
  rw [List.append_left_inj]

-- After an accepted hello from a sender without wildcards the hostmask finds a record, the new one
-- if no earlier one matches, exactly where an earlier record that is kept has it or user!nick is
-- nick!user.
theorem hello_found (defaultFlags hashType : Option Str) (users : Chain User) (plain : ∀ c ∈ hostmask nick ident host, ¬Wildcard c)
    (accepts : Accepts nick users.items) :
    ∃ next, introduceUser defaultFlags hashType users (some (senderPrefix nick ident host)) = some next ∧
      (FoundByMask next (hostmask nick ident host) ↔
        (∃ user ∈ searched nick users.items, user.uhost = some (hostmask nick ident host)) ∨ ident ++ '!' :: nick = nick ++ '!' :: ident) := by
  have stored : ∀ user : User, user.uhost = some (ident ++ '!' :: nick ++ '@' :: host) →
      (matchesMask (hostmask nick ident host) user = true ↔ ident ++ '!' :: nick = nick ++ '!' :: ident) := by
    intro user held
    rw [mask_iff plain,held,Option.some.injEq,stored_matches]
  cases walk : walkTo nick users.items with
  | none =>
      have empty := walkTo_none walk
      obtain ⟨user,done,-,-,held⟩ := hello_first empty nick ident host
      refine ⟨_,done,?_⟩
      have found := found_last [] user [] (hostmask nick ident host)
      rw [stored user held] at found
      simpa [empty,searched] using found
  | some stop =>
      obtain ⟨before,last⟩ := stop
      have ends : searchEnd nick users.items = some last := by
        rw [← walkTo_searchEnd,walk]
        rfl
      obtain ⟨own,has,differs⟩ := accepts last ends
      obtain ⟨user,done,-,-,held⟩ := hello_linked walk has differs ident host
      refine ⟨_,done,?_⟩
      have found := found_last (before ++ [last]) user users.behind (hostmask nick ident host)
      rw [stored user held,walkTo_searched walk] at found
      have split : before ++ [last,user] = searched nick users.items ++ [user] := by
        rw [← walkTo_searched walk,List.append_assoc]
        rfl
      rw [split,found]
      simp only [mask_iff plain]

-- The user name is the nick.
theorem first_hello_found : ∃ next, introduceUser none none .empty (some (senderPrefix ['a'] ['a'] ['h'])) = some next ∧
    FoundByMask next (hostmask ['a'] ['a'] ['h']) := by
  have plain : ∀ c ∈ hostmask ['a'] ['a'] ['h'], ¬Wildcard c := by simp [hostmask,Wildcard]
  obtain ⟨next,done,found⟩ := hello_found none none .empty plain (by rintro last ⟨⟩)
  exact ⟨next,done,found.mpr (.inr rfl)⟩

-- The only record is that of a!u@h, and it has u!a@h.
theorem first_hello_lost : Accepts ['a'] [] ∧
    ∃ next, introduceUser none none .empty (some (senderPrefix ['a'] ['u'] ['h'])) = some next ∧ ¬FoundByMask next (hostmask ['a'] ['u'] ['h']) := by
  refine ⟨?_,_,rfl,?_⟩
  · intro last ends
    cases ends
  · intro found
    have hit := (found_last [] _ [] _).mp found
    rw [mask_iff (by simp [hostmask,Wildcard])] at hit
    simp [hostmask] at hit

end Trollbot.Users
