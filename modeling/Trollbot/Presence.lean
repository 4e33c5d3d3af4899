import Trollbot.Membership

-- What a script is told when it asks who is on a channel.
namespace Trollbot.Irc
open CBuffer IrcParse Roster Runs

-- Without a user_list nobody is looked for.
def onList (chan : Channel) (nickname : Str) : Option Bool :=
  if chan.userList.items = [] then some false else (channelChannelUserFind chan (some nickname)).map Option.isSome

def eggOnchan (net : Network) (nickname : Str) (channel : Option Str) : Option Bool :=
  if net.chans = [] then some false
  else if channel.getD [] = [] then (findPlace (fun chan => onList chan nickname) net.chans).map Option.isSome
  else do
    match ← findPlace (fun chan => sameText channel chan.name) net.chans with
    | none => some false
    | some place => do
      let chan ← net.chans[place]?
      onList chan nickname

-- The bot's answers about a nick, on a channel that it is on, against the channel.
structure Answered (server : Server) (net : Network) (nick name : Str) (answer : Bool) : Prop where
  asked : eggOnchan net nick (some name) = some answer
  listed : fold nick ∈ server.told (fold name) → answer = true
  sound : answer = true → fold nick ∈ server.on (fold name)
  whole : server.Complete (fold name) → (answer = true ↔ fold nick ∈ server.on (fold name))

-- And without a channel.
structure Met (server : Server) (net : Network) (nick : Str) (answer : Bool) : Prop where
  asked : eggOnchan net nick none = some answer
  listed : ∀ chan, server.bot ∈ server.on chan → fold nick ∈ server.told chan → answer = true
  sound : (net.chans.map Channel.key).Nodup → (∀ record ∈ net.chans, ∀ chan, record.key = some chan → server.bot ∈ server.on chan) →
    answer = true → ∃ chan, server.bot ∈ server.on chan ∧ fold nick ∈ server.on chan

def World.Answers (w : World) : Prop :=
  (∀ nick name, name ≠ [] → w.server.bot ∈ w.server.on (fold name) → ∃ answer, Answered w.server w.net nick name answer) ∧
    ∀ nick, ∃ answer, Met w.server w.net nick answer

theorem onList_nicks (named : Channel.Named chan) (nick : Str) : onList chan nick = some (decide (some (fold nick) ∈ chan.nicks)) := by
  unfold onList
  split
  · rename_i empty
    simp [Channel.nicks,empty]
  · rw [find_named named,Option.map_some]
    congr 1
    rw [Bool.eq_iff_iff,decide_eq_true_iff]
    unfold Channel.place Channel.nicks
    rw [List.findIdx?_isSome,List.any_eq_true]
    simp only [decide_eq_true_eq,List.mem_map]

theorem onchan_listed (named : ∀ chan ∈ net.chans, Channel.Named chan) (nick : Str) (some' : name ≠ []) :
    eggOnchan net nick (some name) = some (decide (some (fold nick) ∈ entries net.chans (fold name))) := by
  unfold eggOnchan
  split
  · rename_i empty
    simp [entries,first,empty]
  · rw [Option.getD_some,if_neg some',find_channel' named,Option.bind_eq_bind,Option.bind_some]
    cases found : net.chans.findIdx? (fun chan => chan.key = some (fold name)) with
    | none =>
        rw [entries_missing (first_missing Channel.key found)]
        simp
    | some place =>
        obtain ⟨chan,here,-⟩ := modify_first Channel.key found
        have record := first_place Channel.key found
        rw [here] at record
        rw [entries_record record]
        simp only [here]
        exact onList_nicks (named chan (List.mem_of_getElem? here)) nick

theorem onchan_anywhere (named : ∀ chan ∈ net.chans, Channel.Named chan) (nick : Str) :
    eggOnchan net nick none = some (decide (∃ chan ∈ net.chans, some (fold nick) ∈ chan.nicks)) := by
  unfold eggOnchan
  split
  · rename_i empty
    simp [empty]
  · rw [Option.getD_none,if_pos rfl,findPlace_total (fun chan member => onList_nicks (named chan member) nick),Option.map_some]
    congr 1
    rw [Bool.eq_iff_iff,decide_eq_true_iff,List.findIdx?_isSome,List.any_eq_true]
    simp only [decide_eq_true_eq]

-- Of records with different names each is the first.
theorem first_distinct {chans : List Channel} (distinct : (chans.map Channel.key).Nodup) (member : record ∈ chans) :
    first Channel.key record.key chans = some record := by
  induction chans with
  | nil => cases member
  | cons chan rest ih =>
      obtain ⟨apart,distinct⟩ := List.nodup_cons.mp distinct
      unfold first
      rcases List.mem_cons.mp member with rfl | behind
      · simp
      · have differ : chan.key ≠ record.key := fun same => apart (List.mem_map.mpr ⟨record,behind,same.symm⟩)
        rw [List.find?_cons_of_neg (by simpa using differ)]
        exact ih distinct behind

theorem follows_answers {w : World} (follows : w.Follows) : w.Answers := by
  obtain ⟨equipped,lists⟩ := follows
  constructor
  · intro nick name some' on
    obtain ⟨list,same,between⟩ := lists (fold name) on
    have asked := onchan_listed equipped.named nick some'
    have mem : some (fold nick) ∈ entries w.net.chans (fold name) ↔ fold nick ∈ list := by simp [same]
    refine ⟨_,asked,?_,?_,?_⟩
    · intro told
      exact decide_eq_true (mem.mpr (between.listed _ told))
    · intro there
      exact between.sound _ (mem.mp (of_decide_eq_true there))
    · intro complete
      rw [decide_eq_true_iff,mem]
      exact between_exact between complete (fold nick)
  · intro nick
    refine ⟨_,onchan_anywhere equipped.named nick,?_,?_⟩
    · intro chan on told
      obtain ⟨list,same,between⟩ := lists chan on
      have inside : some (fold nick) ∈ entries w.net.chans chan := by
        rw [same]
        exact List.mem_map_of_mem (between.listed _ told)
      refine decide_eq_true ?_
      cases found : first Channel.key (some chan) w.net.chans with
      | none =>
          rw [entries_missing found] at inside
          cases inside
      | some record =>
          rw [entries_record found] at inside
          exact ⟨record,List.mem_of_find?_eq_some found,inside⟩
    · intro distinct everywhere there
      obtain ⟨record,member,listed⟩ := of_decide_eq_true there
      obtain ⟨chan,named⟩ := Option.ne_none_iff_exists'.mp (equipped.named record member).name
      have key : record.key = some (fold chan) := by simp [Channel.key,named]
      have on := everywhere record member (fold chan) key
      have found := first_distinct distinct member
      rw [key] at found
      obtain ⟨list,same,between⟩ := lists (fold chan) on
      rw [entries_record found] at same
      rw [same] at listed
      obtain ⟨nick',inside,equal⟩ := List.mem_map.mp listed
      cases equal
      exact ⟨fold chan,on,between.sound _ inside⟩

-- After every message of a run in which the bot makes of the messages what they say.
theorem onchan_answers (scripts : Nat → Network → IrcData → Result) (w : World) (msgs : List ServerMessage) (started : w.Started)
    (meets : Meets (World.step scripts) (fun w msg => msg.Sendable w.server ∧ w.Heard msg) w msgs) :
    ∀ sent later, msgs = sent ++ later → ∃ reached, run (World.step scripts) w sent = some reached ∧ reached.Answers := by
  rintro sent later rfl
  have goes : ∀ (w : World) msg, w.Follows → msg.Sendable w.server ∧ w.Heard msg →
      ∃ next, w.step scripts msg = some next ∧ next.Follows :=
    fun w msg follows allowed => follows_step follows allowed.1 allowed.2
  obtain ⟨reached,ran,follows⟩ := run_reaches World.Follows goes (started_follows started) (meets_before meets)
  exact ⟨reached,ran,follows_answers follows⟩

-- The bot joins and hears the names.
theorem names_answered : ∃ reached, run (World.step noScripts) startWorld [botJoins,namesReply] = some reached ∧ reached.Answers := by
  refine onchan_answers noScripts startWorld [botJoins,namesReply] startWorld_started ⟨⟨botJoins_sendable,⟨[],rfl,by simp,by simp⟩⟩,?_⟩ _ [] rfl
  intro next taken
  have server := step_server taken
  obtain ⟨-,on,-⟩ := joined_server
  refine ⟨⟨namesReply_sendable (by rw [server,on]; simp) (by rw [server,on]; simp),rfl,joined_recorded taken,?_⟩,fun _ _ => trivial⟩
  intro _ entry member
  rcases List.mem_cons.mp member with rfl | member
  · simp
  · obtain rfl := List.mem_singleton.mp member
    simp

end Trollbot.Irc
