import Trollbot.User

-- egg_matchattr with its channel argument.
namespace Trollbot.Matchattr

structure ChannelFlags where
  chan : Option Str
  flags : Option Str

structure FlaggedUser extends User where
  chanFlags : List ChannelFlags

-- A channel is only logged. None is a crash: without users the first one is read through a null pointer.
def eggMatchattr (users : List FlaggedUser) (handle flags : Str) (channel : Option Str) : Option Bool :=
  match users with
  | [] => none
  | _ =>
    match users.find? (fun user => tstrcasecmp handle user.username = 0) with
    | none => some false
    | some user =>
      match channel with
      | some _ => some true
      | none =>
        match user.flags with
        | none => some false
        | some own => some (flags.all (fun flag => own.contains flag))

-- A flag of the user, or one for the channel that is asked about.
def Holds (user : FlaggedUser) (channel : Option Str) (flag : Char) : Prop :=
  (∃ own, user.flags = some own ∧ flag ∈ own) ∨
    ∃ name entry chan own, channel = some name ∧ entry ∈ user.chanFlags ∧ entry.chan = some chan ∧ fold chan = fold name ∧
      entry.flags = some own ∧ flag ∈ own

def Granted (users : List FlaggedUser) (handle flags : Str) (channel : Option Str) : Prop :=
  ∃ user ∈ users, fold handle = fold user.username ∧ ∀ flag ∈ flags, Holds user channel flag

-- There is an answer, and it is only yes where it may be.
def FailsClosed (users : List FlaggedUser) (handle flags : Str) (channel : Option Str) : Prop :=
  ∃ result, eggMatchattr users handle flags channel = some result ∧ (result = true → Granted users handle flags channel)

-- Without a channel it is what the built-in commands ask for.
theorem matchattr_global (users : List FlaggedUser) (handle flags : Str) :
    eggMatchattr users handle flags none = Trollbot.eggMatchattr (users.map (·.toUser)) handle flags := by
  cases users with
  | nil => rfl
  | cons first rest =>
      have same : (first.toUser :: rest.map (·.toUser)).find? (fun user => tstrcasecmp handle user.username = 0) =
          ((first :: rest).find? (fun user => tstrcasecmp handle user.username = 0)).map (·.toUser) := by
        rw [← List.map_cons,List.find?_map]
        rfl
      simp only [eggMatchattr,Trollbot.eggMatchattr,List.map_cons,same]
      cases (first :: rest).find? (fun user => tstrcasecmp handle user.username = 0) with
      | none => rfl
      | some user => rfl

theorem found_named {users : List FlaggedUser} (found : users.find? (fun user => tstrcasecmp handle user.username = 0) = some user) :
    user ∈ users ∧ fold handle = fold user.username := by
  refine ⟨List.mem_of_find?_eq_some found,?_⟩
  simpa using List.find?_some found

theorem missing_named {users : List FlaggedUser} (missing : users.find? (fun user => tstrcasecmp handle user.username = 0) = none) :
    ∀ user ∈ users, fold handle ≠ fold user.username := by
  simpa using List.find?_eq_none.mp missing

theorem global_granted {users : List FlaggedUser} (passed : eggMatchattr users handle flags none = some true) :
    Granted users handle flags none := by
  cases found : users.find? (fun user => tstrcasecmp handle user.username = 0) with
  | none =>
      cases users with
      | nil => cases passed
      | cons first rest =>
          simp only [eggMatchattr,found] at passed
          cases passed
  | some user =>
      obtain ⟨member,named⟩ := found_named found
      have plain : (users.map (·.toUser)).find? (fun user => tstrcasecmp handle user.username = 0) = some user.toUser := by
        rw [List.find?_map]
        exact congrArg (Option.map _) found
      rw [matchattr_global] at passed
      obtain ⟨own,has,all⟩ := matchattr_first _ plain passed
      exact ⟨user,member,named,fun flag asked => .inl ⟨own,has,all flag asked⟩⟩

theorem global_answers (some' : users ≠ []) (handle flags : Str) : ∃ result, eggMatchattr users handle flags none = some result := by
  cases users with
  | nil => exact absurd rfl some'
  | cons first rest =>
      cases found : (first :: rest).find? (fun user => tstrcasecmp handle user.username = 0) with
      | none => exact ⟨false,by simp only [eggMatchattr,found]⟩
      | some user =>
          cases own : user.flags with
          | none => exact ⟨false,by simp only [eggMatchattr,found,own]⟩
          | some own' => exact ⟨flags.all (fun flag => own'.contains flag),by simp only [eggMatchattr,found,own]⟩

-- With a channel any record of the handle is enough.
theorem channel_answers (some' : users ≠ []) (handle flags name : Str) :
    ((∀ user ∈ users, fold handle ≠ fold user.username) ∧ eggMatchattr users handle flags (some name) = some false) ∨
      ((∃ user ∈ users, fold handle = fold user.username) ∧ eggMatchattr users handle flags (some name) = some true) := by
  cases users with
  | nil => exact absurd rfl some'
  | cons first rest =>
      cases found : (first :: rest).find? (fun user => tstrcasecmp handle user.username = 0) with
      | none => exact .inl ⟨missing_named found,by simp only [eggMatchattr,found]⟩
      | some user => exact .inr ⟨⟨user,found_named found⟩,by simp only [eggMatchattr,found]⟩

theorem matchattr_closed (users : List FlaggedUser) (handle flags : Str) (channel : Option Str) : FailsClosed users handle flags channel ↔
    users ≠ [] ∧ (channel = none ∨ (∀ user ∈ users, fold handle ≠ fold user.username) ∨ Granted users handle flags channel) := by
  by_cases nobody : users = []
  · subst nobody
    refine ⟨?_,fun condition => absurd rfl condition.1⟩
    rintro ⟨result,answered,-⟩
    cases answered
  · cases channel with
    | none =>
        refine ⟨fun _ => ⟨nobody,.inl rfl⟩,fun _ => ?_⟩
        obtain ⟨result,answered⟩ := global_answers nobody handle flags
        refine ⟨result,answered,?_⟩
        rintro rfl
        exact global_granted answered
    | some name =>
        rcases channel_answers nobody handle flags name with ⟨away,answered⟩ | ⟨⟨user,member,named⟩,answered⟩
        · exact ⟨fun _ => ⟨nobody,.inr (.inl away)⟩,fun _ => ⟨false,answered,nofun⟩⟩
        · constructor
          · rintro ⟨result,other,closed⟩
            rw [answered] at other
            exact ⟨nobody,.inr (.inr (closed (Option.some.inj other).symm))⟩
          · rintro ⟨-,none | away | granted⟩
            · cases none
            · exact absurd named (away user member)
            · exact ⟨true,answered,fun _ => granted⟩

def guest : FlaggedUser := ⟨newUser "guest".toList none none none none none none,[]⟩

-- A record without any flags has all of them on a channel.
theorem channel_grants : ¬FailsClosed [guest] "guest".toList ['n'] (some "#c".toList) := by
  rintro ⟨result,answered,closed⟩
  have yes : eggMatchattr [guest] "guest".toList ['n'] (some "#c".toList) = some true := by decide
  obtain ⟨user,member,-,all⟩ := closed (Option.some.inj (answered.symm.trans yes))
  obtain rfl := List.mem_singleton.mp member
  rcases all 'n' (by simp) with ⟨own,flags,-⟩ | ⟨name,entry,chan,own,-,inside,-⟩
  · cases flags
  · cases inside

end Trollbot.Matchattr
