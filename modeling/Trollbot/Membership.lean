import Trollbot.Tracking
import Trollbot.Foundation.Runs

-- The bot's user lists against the server's channels, over whole runs.
namespace Trollbot.Irc
open CBuffer IrcParse Roster Runs

structure World where
  server : Server
  net : Network

def World.step (scripts : Nat → Network → IrcData → Result) (w : World) (msg : ServerMessage) : Option World :=
  (parseIrcLine scripts w.net msg.message.render).map (fun result => ⟨w.server.after msg.event,result.1⟩)

-- On a channel with the bot and a full names reply, the list is the server's.
def World.Tracks (w : World) : Prop :=
  ∀ chan, w.server.bot ∈ w.server.on chan → w.server.Complete chan →
    ∃ list : List Str, entries w.net.chans chan = list.map some ∧ list.Nodup ∧ ∀ nick, nick ∈ list ↔ nick ∈ w.server.on chan

-- The bot is connected and on no channel yet; the channels it knows of may have records.
structure World.Started (w : World) : Prop where
  equipped : Equipped w.net
  nowhere : ∀ chan, w.server.bot ∉ w.server.on chan

def Recorded (chans : List Channel) (chan : Str) : Prop := first Channel.key (some chan) chans ≠ none

-- Another one's entry in the list of a channel the bot is on.
def Watched (server : Server) (chans : List Channel) (nick chan : Str) : Prop :=
  nick ≠ server.bot ∧ server.bot ∈ server.on chan ∧ some nick ∈ entries chans chan

-- The entry is the second of the list, or the first with nothing behind the pointer.
def Removable (chans : List Channel) (nick chan : Str) : Prop :=
  ∀ record, first Channel.key (some chan) chans = some record →
    record.nicks[1]? = some (some nick) ∨ record.nicks[0]? = some (some nick) ∧ record.userList.behind = []

-- The entries left from an earlier stay are nicks of the channel.
def Fresh (server : Server) (chans : List Channel) (chan : Str) : Prop :=
  ∃ list : List Str, entries chans chan = list.map some ∧ list.Nodup ∧ ∀ nick ∈ list, nick = server.bot ∨ nick ∈ server.on chan

-- What the bot makes of a message is what the message says.
def World.Heard (w : World) : ServerMessage → Prop
  | ⟨.join who chan,colon⟩ =>
    if fold who.nick = w.server.bot then Fresh w.server w.net.chans (fold chan)
    else w.server.bot ∈ w.server.on (fold chan) → colon = true ∧ Recorded w.net.chans (fold chan)
  | ⟨.part who chan reason,colon⟩ =>
    ¬(colon = true ∧ reason = none) ∧
    (Watched w.server w.net.chans (fold who.nick) (fold chan) →
      colon = true ∧ reason.getD [] ≠ [] ∧ Removable w.net.chans (fold who.nick) (fold chan))
  | ⟨.kick _ chan nick reason,colon⟩ =>
    Watched w.server w.net.chans (fold nick) (fold chan) →
      ¬(colon = true ∧ reason = none) ∧ Removable w.net.chans (fold nick) (fold chan)
  | ⟨.quit who _,_⟩ => ∀ chan, ¬Watched w.server w.net.chans (fold who.nick) chan
  | ⟨.rename who _,colon⟩ => colon = true ∨ ∀ chan ∈ w.net.chans, some (fold who.nick) ∉ chan.nicks
  | ⟨.names _ _ _ chan given _,colon⟩ =>
    colon = true ∧ Recorded w.net.chans (fold chan) ∧
    (w.server.bot ∈ w.server.on (fold chan) → ∀ entry ∈ given, ∀ c ∈ entry.symbols, c = '@' ∨ c = '+')

-- On every channel with the bot the list is between what the bot was told and what is there.
def Lists (server : Server) (chans : List Channel) : Prop :=
  ∀ chan, server.bot ∈ server.on chan →
    ∃ list : List Str, entries chans chan = list.map some ∧ Between (server.told chan) (server.on chan) list

structure World.Follows (w : World) : Prop where
  equipped : Equipped w.net
  lists : Lists w.server w.net.chans

theorem started_follows (started : World.Started w) : w.Follows :=
  ⟨started.equipped,fun chan on => absurd on (started.nowhere chan)⟩

theorem follows_tracks (follows : World.Follows w) : w.Tracks := by
  intro chan on complete
  obtain ⟨list,same,between⟩ := follows.lists chan on
  exact ⟨list,same,between.once,between_exact between complete⟩

section
variable {server : Server} {chans : List Channel}

theorem entries_record (found : first Channel.key (some chan) chans = some record) : entries chans chan = record.nicks := by
  simp [entries,found]

theorem entries_amend {f : Channel → Channel} (keeps : ∀ chan, (f chan).key = chan.key) (name chan : Str) :
    entries (amend Channel.key (some name) f chans) chan =
      if chan = name then ((first Channel.key (some name) chans).map (fun record => (f record).nicks)).getD []
      else entries chans chan := by
  unfold entries
  rw [first_amend Channel.key keeps]
  by_cases same : chan = name
  · subst same
    simp only [if_true]
    cases first Channel.key (some chan) chans <;> rfl
  · simp [same]

theorem entries_missing (missing : first Channel.key (some chan) chans = none) : entries chans chan = [] := by
  simp [entries,missing]

theorem lists_update (lists : Lists server chans) {f : Channel → Channel} (keeps : ∀ chan, (f chan).key = chan.key) (name : Str)
    {on told : Set Str} (here : server.bot ∈ on → ∃ list : List Str,
      ((first Channel.key (some name) chans).map (fun record => (f record).nicks)).getD [] = list.map some ∧ Between told on list) :
    Lists { server with on := Function.update server.on name on, told := Function.update server.told name told }
      (amend Channel.key (some name) f chans) := by
  intro chan present
  rw [entries_amend keeps]
  by_cases same : chan = name
  · subst same
    simp only [Function.update_self,if_true] at present ⊢
    exact here present
  · simp only [Function.update_of_ne same,if_neg same] at present ⊢
    exact lists chan present

theorem lists_left (lists : Lists server chans) (nick : Str) (chan : Str)
    (removable : Watched server chans (fold nick) chan → Removable chans (fold nick) chan) :
    Lists (server.leave (fold nick) chan) (amend Channel.key (some chan) (Channel.left nick) chans) := by
  refine lists_update lists (key_left nick) chan ?_
  rintro ⟨on,differs⟩
  obtain ⟨list,same,between⟩ := lists chan on
  cases found : first Channel.key (some chan) chans with
  | none =>
      obtain rfl : list = [] := by simpa [entries_missing found] using same.symm
      exact ⟨[],rfl,between_absent between (by simp)⟩
  | some record =>
      rw [entries_record found] at same
      by_cases listed : fold nick ∈ list
      · have watched : Watched server chans (fold nick) chan := by
          refine ⟨fun own => differs own.symm,on,?_⟩
          rw [entries_record found,same]
          exact List.mem_map_of_mem listed
        cases place : record.place nick with
        | none => exact absurd listed (place_none same place)
        | some i =>
            have here := place_some same place
            have inside := (List.getElem?_eq_some_iff.mp here).1
            have at' : ∀ j, record.nicks[j]? = some (some (fold nick)) → i = j := by
              intro j cell
              have again : list[j]? = some (fold nick) := by simpa [same] using cell
              exact (List.getElem?_inj inside between.once).mp (here.trans again.symm)
            have unlinks : record.userList.Unlinks i := by
              rcases removable watched record found with second | ⟨first,clear⟩
              · exact .inl (at' 1 second)
              · exact .inr ⟨at' 0 first,clear⟩
            exact ⟨list.eraseIdx i,nicks_left same place unlinks,between_erase between here⟩
      · refine ⟨list,?_,between_absent between listed⟩
        simp only [Option.map_some,Option.getD_some,left_absent same listed,same]

theorem watched_listed {list : List Str} (on : server.bot ∈ server.on chan) (same : entries chans chan = list.map some)
    (unwatched : ¬Watched server chans nick chan) (differs : nick ≠ server.bot) : nick ∉ list := by
  intro listed
  refine unwatched ⟨differs,on,?_⟩
  rw [same]
  exact List.mem_map_of_mem listed

theorem lists_missed (lists : Lists server chans) (unwatched : ¬Watched server chans nick chan) :
    Lists (server.leave nick chan) chans := by
  intro other present
  by_cases same : other = chan
  · subst same
    simp only [Server.leave,Function.update_self] at present ⊢
    obtain ⟨on,differs⟩ := present
    obtain ⟨list,entries,between⟩ := lists other on
    exact ⟨list,entries,between_absent between (watched_listed on entries unwatched (fun own => differs own.symm))⟩
  · simp only [Server.leave,Function.update_of_ne same] at present ⊢
    exact lists other present

theorem lists_quit (lists : Lists server chans) (unwatched : ∀ chan, ¬Watched server chans nick chan) :
    Lists (server.quit nick) chans := by
  rintro chan ⟨on,differs⟩
  obtain ⟨list,entries,between⟩ := lists chan on
  exact ⟨list,entries,between_absent between (watched_listed on entries (unwatched chan) (fun own => differs own.symm))⟩

theorem nicks_joined (same : Channel.nicks record = List.map some list) (who : Who) :
    (record.joined who).nicks = (enter list (fold who.nick)).map some := by
  refine nicks_entered same ?_ who.nick
  intro cuser
  rfl

theorem key_joined (who : Who) (record : Channel) : (record.joined who).key = record.key := key_entered _ _ record

theorem lists_joined (lists : Lists server chans) (who : Who) (other : fold who.nick ≠ server.bot)
    (recorded : server.bot ∈ server.on chan → Recorded chans chan) :
    Lists (server.join (fold who.nick) chan) (amend Channel.key (some chan) (Channel.joined who) chans) := by
  unfold Server.join
  rw [if_neg other]
  refine lists_update lists (key_joined who) chan ?_
  intro present
  have on : server.bot ∈ server.on chan := present.resolve_left (fun own => other own.symm)
  obtain ⟨list,same,between⟩ := lists chan on
  obtain ⟨record,found⟩ := Option.ne_none_iff_exists'.mp (recorded on)
  rw [entries_record found] at same
  rw [found]
  exact ⟨_,nicks_joined same who,between_enter between (fold who.nick)⟩

-- Another one's JOIN on a channel without the bot.
theorem lists_elsewhere (lists : Lists server chans) (other : nick ≠ server.bot) (away : server.bot ∉ server.on chan) :
    Lists (server.join nick chan) chans := by
  unfold Server.join
  rw [if_neg other]
  intro name present
  by_cases same : name = chan
  · subst same
    simp only [Function.update_self] at present
    exact absurd (present.resolve_left (fun own => other own.symm)) away
  · simp only [Function.update_of_ne same] at present ⊢
    exact lists name present

theorem fresh_between (fresh : Fresh server chans chan) : ∃ list : List Str, entries chans chan = list.map some ∧
    Between ∅ (insert server.bot (server.on chan)) list := by
  obtain ⟨list,same,once,sound⟩ := fresh
  exact ⟨list,same,⟨once,by simp,sound⟩⟩

theorem lists_own (lists : Lists server chans) (who : Who) (own : fold who.nick = server.bot) (fresh : Fresh server chans chan) :
    Lists (server.join (fold who.nick) chan) (amend Channel.key (some chan) (Channel.joined who) chans) := by
  obtain ⟨list,same,between⟩ := fresh_between fresh
  unfold Server.join
  rw [if_pos own,own]
  refine lists_update lists (key_joined who) chan ?_
  intro _
  cases found : first Channel.key (some chan) chans with
  | none =>
      obtain rfl : list = [] := by simpa [entries_missing found] using same.symm
      exact ⟨[],rfl,between⟩
  | some record =>
      rw [entries_record found] at same
      have entered : Between (insert server.bot ∅) (insert server.bot (server.on chan)) (enter list server.bot) := by
        have more := between_enter between server.bot
        rwa [Set.insert_idem] at more
      exact ⟨_,own ▸ nicks_joined same who,between_mono entered (by simp) (Set.Subset.refl _)⟩

theorem lists_unheard (lists : Lists server chans) (own : nick = server.bot) (fresh : Fresh server chans chan) :
    Lists (server.join nick chan) chans := by
  unfold Server.join
  rw [if_pos own,own]
  intro name present
  by_cases same : name = chan
  · subst same
    simp only [Function.update_self] at present ⊢
    exact fresh_between fresh
  · simp only [Function.update_of_ne same] at present ⊢
    exact lists name present

theorem lists_renamed (lists : Lists server chans) (old new : Str)
    (free : fold new = server.bot ∨ (∃ chan, fold new ∈ server.on chan) → fold new = fold old) :
    Lists (server.rename (fold old) (fold new)) (chans.map (Channel.renamed old new)) := by
  intro chan present
  have on := (rename_bot free chan).mp present
  obtain ⟨list,same,between⟩ := lists chan on
  unfold entries
  rw [first_map Channel.key (key_renamed old new)]
  cases found : first Channel.key (some chan) chans with
  | none =>
      obtain rfl : list = [] := by simpa [entries_missing found] using same.symm
      exact ⟨[],rfl,between_unnamed between (by simp) (fold new)⟩
  | some record =>
      rw [entries_record found] at same
      rcases nicks_renamed same old new with ⟨absent,unchanged⟩ | ⟨place,here,nicks⟩
      · exact ⟨list,by simp only [Option.map_some,unchanged,same],between_unnamed between absent (fold new)⟩
      · exact ⟨_,nicks,between_rename between here (fun member => free (.inr ⟨chan,member⟩))⟩

theorem populated_nick (well : NamesEntry.WellFormed entry) (known : ∀ c ∈ entry.symbols, c = '@' ∨ c = '+') :
    entry.text.dropWhile isPrefixMode = entry.nick := by
  have signs : ∀ c ∈ entry.symbols, isPrefixMode c = true := by
    intro c member
    rcases known c member with rfl | rfl <;> rfl
  rw [NamesEntry.text,List.dropWhile_append_of_pos signs]
  cases nick : entry.nick with
  | nil => exact absurd nick well.nick.1
  | cons c rest =>
      have plain := well.head c (by simp [nick])
      rw [List.dropWhile_cons_of_neg]
      intro sign
      rcases Bool.or_eq_true _ _ |>.mp sign with same | same
      · exact plain (by simp [namesSymbols,beq_iff_eq.mp same])
      · exact plain (by simp [namesSymbols,beq_iff_eq.mp same])

theorem nicks_populated (given : List NamesEntry) (well : ∀ entry ∈ given, entry.WellFormed)
    (known : ∀ entry ∈ given, ∀ c ∈ entry.symbols, c = '@' ∨ c = '+') (same : Channel.nicks record = List.map some list) :
    ((given.map NamesEntry.text).foldl Channel.populated record).nicks =
      ((given.map (fun entry => fold entry.nick)).foldl enter list).map some := by
  induction given generalizing record list with
  | nil => exact same
  | cons entry rest ih =>
      have nick := populated_nick (well entry (by simp)) (known entry (by simp))
      have entered : (record.populated entry.text).nicks = (enter list (fold entry.nick)).map some := by
        rw [← nick]
        refine nicks_entered same ?_ _
        intro cuser
        rfl
      exact ih (fun other member => well other (by simp [member])) (fun other member => known other (by simp [member])) entered

theorem lists_named (lists : Lists server chans) (given : List NamesEntry) (recorded : Recorded chans chan)
    (well : ∀ entry ∈ given, entry.WellFormed) (there : ∀ entry ∈ given, fold entry.nick ∈ server.on chan)
    (known : server.bot ∈ server.on chan → ∀ entry ∈ given, ∀ c ∈ entry.symbols, c = '@' ∨ c = '+') :
    Lists (server.name chan (given.map (fun entry => fold entry.nick)))
      (amend Channel.key (some chan) (fun record => (given.map NamesEntry.text).foldl Channel.populated record) chans) := by
  have whole : (server.name chan (given.map (fun entry => fold entry.nick))) =
      { server with
        on := Function.update server.on chan (server.on chan)
        told := Function.update server.told chan (server.told chan ∪ {nick | nick ∈ given.map (fun entry => fold entry.nick)}) } := by
    rw [Function.update_eq_self]
    rfl
  rw [whole]
  refine lists_update lists (key_populated _) chan ?_
  intro on
  obtain ⟨list,same,between⟩ := lists chan on
  obtain ⟨record,found⟩ := Option.ne_none_iff_exists'.mp recorded
  rw [entries_record found] at same
  rw [found]
  refine ⟨_,nicks_populated given well (known on) same,between_all between _ ?_⟩
  intro nick member
  obtain ⟨entry,inside,rfl⟩ := List.mem_map.mp member
  exact there entry inside

end

section
variable {scripts : Nat → Network → IrcData → Result}

theorem step_of_ends {w : World} {msg : ServerMessage} (ends : Ends (parseIrcLine scripts w.net msg.message.render) chans)
    (lists : Lists (w.server.after msg.event) chans) : ∃ next, w.step scripts msg = some next ∧ next.Follows := by
  obtain ⟨net,out,ran,rfl,equipped⟩ := ends
  exact ⟨⟨w.server.after msg.event,net⟩,by simp [World.step,ran],equipped,lists⟩

theorem follows_step {w : World} {msg : ServerMessage} (follows : w.Follows) (sendable : msg.Sendable w.server) (heard : w.Heard msg) :
    ∃ next, w.step scripts msg = some next ∧ next.Follows := by
  obtain ⟨equipped,lists⟩ := follows
  obtain ⟨possible,well,readable⟩ := sendable
  obtain ⟨event,colon⟩ := msg
  cases event with
  | join who chan =>
      by_cases own : fold who.nick = w.server.bot
      · simp only [World.Heard,if_pos own] at heard
        cases colon with
        | true => exact step_of_ends (join_heard equipped who well readable) (lists_own lists who own heard)
        | false => exact step_of_ends (silent_passed equipped _ (.inl rfl) rfl readable) (lists_unheard lists own heard)
      · simp only [World.Heard,if_neg own] at heard
        cases colon with
        | true => exact step_of_ends (join_heard equipped who well readable) (lists_joined lists who own (fun on => (heard on).2))
        | false =>
            refine step_of_ends (silent_passed equipped _ (.inl rfl) rfl readable) (lists_elsewhere lists own ?_)
            intro on
            exact absurd (heard on).1 (by simp)
  | part who chan reason =>
      obtain ⟨given,tracked⟩ := heard
      by_cases spoken : colon = true ∧ reason.getD [] ≠ []
      · obtain ⟨rfl,some'⟩ := spoken
        cases reason with
        | none => exact absurd rfl some'
        | some reason =>
            exact step_of_ends (part_heard equipped who chan some' readable)
              (lists_left lists who.nick (fold chan) (fun watched => (tracked watched).2.2))
      · refine step_of_ends (silent_passed equipped _ (.inr rfl) ?_ readable)
          (lists_missed lists (fun watched => spoken ⟨(tracked watched).1,(tracked watched).2.1⟩))
        cases colon with
        | false => rfl
        | true =>
            cases reason with
            | none => exact absurd ⟨rfl,rfl⟩ given
            | some reason => exact Decidable.not_not.mp (fun some' => spoken ⟨rfl,some'⟩)
  | kick source chan nick reason =>
      by_cases behind : colon = true ∧ reason = none
      · obtain ⟨rfl,rfl⟩ := behind
        exact step_of_ends (kick_passed equipped source chan nick readable)
          (lists_missed lists (fun watched => (heard watched).1 ⟨rfl,rfl⟩))
      · exact step_of_ends (kick_heard equipped source chan nick reason colon behind readable)
          (lists_left lists nick (fold chan) (fun watched => (heard watched).2))
  | quit who reason => exact step_of_ends (quit_passed equipped who reason colon readable) (lists_quit lists heard)
  | rename who new =>
      refine step_of_ends (rename_heard equipped who well ?_ readable) (lists_renamed lists who.nick new possible)
      refine heard.imp_right (fun absent chan member => ?_)
      cases place : chan.place who.nick with
      | none => rfl
      | some i =>
          obtain ⟨cuser,here,same,-⟩ := modify_first ChannelUser.key place
          exact absurd (List.mem_map.mpr ⟨cuser,List.mem_of_getElem? here,same⟩) (absent chan member)
  | names server target kind chan given gap =>
      obtain ⟨rfl,recorded,known⟩ := heard
      exact step_of_ends (names_heard equipped server target kind chan gap given well.1 well.2 recorded readable)
        (lists_named lists given recorded well.2 possible known)

-- After every message of a run in which the bot makes of the messages what they say.
theorem membership_tracks (scripts : Nat → Network → IrcData → Result) (w : World) (msgs : List ServerMessage) (started : w.Started)
    (meets : Meets (World.step scripts) (fun w msg => msg.Sendable w.server ∧ w.Heard msg) w msgs) :
    ∀ sent later, msgs = sent ++ later → ∃ reached, run (World.step scripts) w sent = some reached ∧ reached.Tracks := by
  rintro sent later rfl
  have goes : ∀ (w : World) msg, w.Follows → msg.Sendable w.server ∧ w.Heard msg →
      ∃ next, w.step scripts msg = some next ∧ next.Follows :=
    fun w msg follows allowed => follows_step follows allowed.1 allowed.2
  obtain ⟨reached,ran,follows⟩ := run_reaches World.Follows goes (started_follows started) (meets_before meets)
  exact ⟨reached,ran,follows_tracks follows⟩

theorem step_server {w next : World} {msg : ServerMessage} (taken : w.step scripts msg = some next) :
    next.server = w.server.after msg.event := by
  obtain ⟨result,-,rfl⟩ := Option.map_eq_some_iff.mp taken
  rfl

end

-- A network with one channel in its records, and the built-in triggers.
def startNetwork : Network :=
  ⟨"bot".toList,some "bot".toList,none,none,.idle,[newChannel "#c".toList],fun type =>
    match type with
    | .join => ⟨[],[builtin .join "*".toList .newJoin]⟩
    | .part => ⟨[],[builtin .part "*".toList .newPart]⟩
    | .kick => ⟨[],[builtin .kick "*".toList .newKick]⟩
    | .raw => ⟨[],defaultRaw⟩
    | _ => .empty⟩

-- One user on the channel, before the bot joins it.
def startWorld : World :=
  ⟨⟨"bot".toList,fun chan => if chan = "#c".toList then {"ann".toList} else ∅,fun _ => ∅⟩,startNetwork⟩

def botJoins : ServerMessage := ⟨.join ⟨"bot".toList,"b".toList,"h".toList⟩ "#c".toList,true⟩
def namesReply : ServerMessage :=
  ⟨.names "irc".toList "bot".toList "=".toList "#c".toList [⟨[],"bot".toList⟩,⟨"@".toList,"ann".toList⟩] false,true⟩
def annQuits : ServerMessage := ⟨.quit ⟨"ann".toList,"a".toList,"h".toList⟩ "bye".toList,true⟩

def noScripts : Nat → Network → IrcData → Result := fun _ net _ => some (net,[])

theorem startWorld_started : startWorld.Started := by
  refine ⟨⟨by decide,rfl,rfl,rfl,rfl,?_⟩,?_⟩
  · intro chan member
    obtain rfl : chan = newChannel "#c".toList := by simpa [startWorld,startNetwork] using member
    exact ⟨by decide,by simp [newChannel,Chain.empty,Chain.whole]⟩
  · intro chan on
    simp only [startWorld] at on
    split at on
    · exact absurd on (by decide)
    · exact on

theorem botJoins_readable : botJoins.message.Readable := by
  refine ⟨?_,by unfold Word; decide,?_,by decide,by decide⟩
  · intro origin same
    cases same
    exact ⟨⟨by decide,by decide⟩,by decide⟩
  · intro middle member
    cases member

theorem namesReply_readable : namesReply.message.Readable := by
  refine ⟨?_,by unfold Word; decide,?_,by decide,by decide⟩
  · intro origin same
    cases same
    exact ⟨by show '!' ∉ _; decide,by decide⟩
  · intro middle member
    have each : ∀ middle ∈ namesReply.message.middles, middle ≠ [] ∧ ' ' ∉ middle ∧ middle.head? ≠ some ':' := by decide
    exact each middle member

theorem annQuits_readable : annQuits.message.Readable := by
  refine ⟨?_,by unfold Word; decide,?_,by decide,by decide⟩
  · intro origin same
    cases same
    exact ⟨⟨by decide,by decide⟩,by decide⟩
  · intro middle member
    cases member

theorem botJoins_sendable : botJoins.Sendable startWorld.server := by
  refine ⟨?_,by show Word _; unfold Word; decide,botJoins_readable⟩
  show fold "bot".toList ∉ startWorld.server.on (fold "#c".toList)
  simp only [startWorld]
  rw [if_pos (by decide)]
  decide

theorem namesReply_sendable {server : Server} (bot : "bot".toList ∈ server.on "#c".toList) (ann : "ann".toList ∈ server.on "#c".toList) :
    namesReply.Sendable server := by
  refine ⟨?_,⟨by simp,?_⟩,namesReply_readable⟩
  · intro entry member
    rcases List.mem_cons.mp member with rfl | member
    · exact bot
    · obtain rfl := List.mem_singleton.mp member
      exact ann
  · intro entry member
    rcases List.mem_cons.mp member with rfl | member
    · exact ⟨by decide,by decide,by simp; decide⟩
    · obtain rfl := List.mem_singleton.mp member
      exact ⟨by decide,by decide,by simp; decide⟩

-- The server's side of the channel after the JOIN and after the names reply.
theorem joined_server : (startWorld.server.after botJoins.event).bot = "bot".toList ∧
    (startWorld.server.after botJoins.event).on "#c".toList = {"bot".toList,"ann".toList} ∧
    (startWorld.server.after botJoins.event).told "#c".toList = ∅ := by
  have names : fold "bot".toList = "bot".toList ∧ fold "#c".toList = "#c".toList := by decide
  simp only [botJoins,Server.after,names,Server.join,Function.update_self]
  exact ⟨rfl,rfl,rfl⟩

theorem named_server (server : Server) : (server.after namesReply.event).bot = server.bot ∧
    (server.after namesReply.event).on = server.on ∧
    (server.after namesReply.event).told "#c".toList = server.told "#c".toList ∪ {"bot".toList,"ann".toList} := by
  have name : fold "#c".toList = "#c".toList := by decide
  have nicks : [fold "bot".toList,fold "ann".toList] = ["bot".toList,"ann".toList] := by decide
  simp only [namesReply,Server.after,name,Server.name,Function.update_self,List.map_cons,List.map_nil,nicks]
  refine ⟨trivial,trivial,?_⟩
  congr 1
  ext nick
  simp

theorem joined_recorded {next : World} (taken : startWorld.step noScripts botJoins = some next) :
    Recorded next.net.chans (fold "#c".toList) := by
  have ran : (startWorld.step noScripts botJoins).map (fun next => (first Channel.key (some (fold "#c".toList)) next.net.chans).isSome) =
      some true := by decide +kernel
  rw [taken,Option.map_some,Option.some.injEq] at ran
  intro missing
  rw [missing] at ran
  cases ran

-- The bot joins and hears the names.
theorem names_tracked :
    ∃ reached, run (World.step noScripts) startWorld [botJoins,namesReply] = some reached ∧ reached.Tracks := by
  refine membership_tracks noScripts startWorld [botJoins,namesReply] startWorld_started ⟨⟨botJoins_sendable,?_⟩,?_⟩ _ [] rfl
  · exact ⟨[],rfl,by simp,by simp⟩
  intro next taken
  have server := step_server taken
  obtain ⟨-,on,-⟩ := joined_server
  refine ⟨⟨namesReply_sendable (by rw [server,on]; simp) (by rw [server,on]; simp),rfl,joined_recorded taken,?_⟩,fun _ _ => trivial⟩
  · intro _ entry member
    rcases List.mem_cons.mp member with rfl | member
    · simp
    · obtain rfl := List.mem_singleton.mp member
      simp

-- One who quits stays in the list.
theorem quit_untracked : startWorld.Started ∧
    Meets (World.step noScripts) (fun w msg => msg.Sendable w.server) startWorld [botJoins,namesReply,annQuits] ∧
    ∃ reached, run (World.step noScripts) startWorld [botJoins,namesReply,annQuits] = some reached ∧ ¬reached.Tracks := by
  obtain ⟨bot,on,told⟩ := joined_server
  refine ⟨startWorld_started,⟨botJoins_sendable,?_⟩,?_⟩
  · intro next taken
    have server := step_server taken
    refine ⟨namesReply_sendable (by rw [server,on]; simp) (by rw [server,on]; simp),fun last _ => ?_⟩
    exact ⟨⟨trivial,trivial,annQuits_readable⟩,fun _ _ => trivial⟩
  · have ran : (run (World.step noScripts) startWorld [botJoins,namesReply,annQuits]).map (fun last => entries last.net.chans "#c".toList) =
        some [some "bot".toList,some "ann".toList] := by decide +kernel
    obtain ⟨last,reached,listed⟩ := Option.map_eq_some_iff.mp ran
    refine ⟨last,reached,?_⟩
    have server : last.server = ((startWorld.server.after botJoins.event).after namesReply.event).quit "ann".toList := by
      obtain ⟨first,one,reached⟩ := Option.bind_eq_some_iff.mp reached
      obtain ⟨second,two,reached⟩ := Option.bind_eq_some_iff.mp reached
      obtain ⟨third,three,reached⟩ := Option.bind_eq_some_iff.mp reached
      cases reached
      rw [step_server three,step_server two,step_server one]
      rfl
    obtain ⟨sameBot,sameOn,more⟩ := named_server (startWorld.server.after botJoins.event)
    have present : last.server.on "#c".toList = {"bot".toList,"ann".toList} \ {"ann".toList} := by
      rw [server]
      simp only [Server.quit,sameOn,on]
    have named : last.server.told "#c".toList = {"bot".toList,"ann".toList} \ {"ann".toList} := by
      rw [server]
      simp only [Server.quit,more,told,Set.empty_union]
    intro tracks
    have here : last.server.bot ∈ last.server.on "#c".toList := by
      rw [present,server]
      simp only [Server.quit,sameBot,bot]
      exact ⟨by simp,by decide⟩
    obtain ⟨list,same,-,members⟩ := tracks "#c".toList here (by rw [Server.Complete,present,named])
    rw [listed] at same
    have member : "ann".toList ∈ list := by
      have inside : some "ann".toList ∈ list.map some := by rw [← same]; simp
      simpa using inside
    have gone := (members "ann".toList).mp member
    rw [present] at gone
    exact gone.2 rfl

end Trollbot.Irc
