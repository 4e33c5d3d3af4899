import Trollbot.Membership

-- What the bot takes for its own nick, against the nick the server knows it by.
namespace Trollbot.Irc
open CBuffer IrcParse Runs

-- The nicks and the triggers are as they were, up to use counts.
structure SameNicks (net later : Network) : Prop where
  nick : later.nick = net.nick
  botnick : later.botnick = net.botnick
  altnick : later.altnick = net.altnick
  trigs : ∀ type, (later.trigs type).items.map triggerKey = (net.trigs type).items.map triggerKey

theorem SameNicks.refl (net : Network) : SameNicks net net := ⟨rfl,rfl,rfl,fun _ => rfl⟩

theorem SameNicks.trans (first : SameNicks net middle) (second : SameNicks middle later) : SameNicks net later :=
  ⟨second.nick.trans first.nick,second.botnick.trans first.botnick,second.altnick.trans first.altnick,
    fun type => (second.trigs type).trans (first.trigs type)⟩

theorem chans_keeps (net : Network) (chans : List Channel) : SameNicks net { net with chans := chans } := ⟨rfl,rfl,rfl,fun _ => rfl⟩

theorem count_keeps (net : Network) (type : TrigType) (place : Nat) : SameNicks net (countUse net type place) :=
  ⟨rfl,rfl,rfl,fun other => count_keys type other place⟩

theorem onChannel_keeps (done : onChannel net found f = some (later,out)) : SameNicks net later := by
  obtain ⟨place,-,done⟩ := Option.bind_eq_some_iff.mp done
  cases place with
  | none =>
      cases done
      exact .refl net
  | some place =>
      obtain ⟨chan,-,done⟩ := Option.bind_eq_some_iff.mp done
      obtain ⟨⟨changed,sent⟩,-,done⟩ := Option.bind_eq_some_iff.mp done
      cases done
      exact chans_keeps net _

theorem eachChannel_keeps (done : eachChannel net f = some (later,out)) : SameNicks net later := by
  obtain ⟨chans,-,done⟩ := Option.bind_eq_some_iff.mp done
  cases done
  exact chans_keeps net chans

theorem recorded_keeps {net : Network} {search : Result} (same : search = some (later,out) → SameNicks net later)
    (done : (if net.chans = [] then some (net,[]) else search) = some (later,out)) : SameNicks net later := by
  split at done
  · cases done
    exact .refl _
  · exact same done

-- The handlers that are not followed here.
def Leaves (scripts : Nat → Network → IrcData → Result) : Prop :=
  ∀ id net data later out, scripts id net data = some (later,out) → SameNicks net later

theorem newKick_keeps (done : newKick net data = some (later,out)) : SameNicks net later := by
  obtain ⟨kicked,-,done⟩ := Option.bind_eq_some_iff.mp done
  obtain ⟨name,-,done⟩ := Option.bind_eq_some_iff.mp done
  obtain ⟨nick,-,done⟩ := Option.bind_eq_some_iff.mp done
  dsimp only at done
  split at done
  all_goals
    obtain ⟨rejoin,-,done⟩ := Option.bind_eq_some_iff.mp done
    obtain ⟨⟨changed,sent⟩,left,done⟩ := Option.bind_eq_some_iff.mp done
    obtain ⟨pre,-,done⟩ := Option.bind_eq_some_iff.mp done
    cases done
    exact onChannel_keeps left

theorem channelListPopulate_keeps (done : channelListPopulate net data = some (later,out)) : SameNicks net later := by
  unfold channelListPopulate at done
  split at done
  · cases done
  · obtain ⟨name,-,done⟩ := Option.bind_eq_some_iff.mp done
    obtain ⟨found,-,done⟩ := Option.bind_eq_some_iff.mp done
    dsimp only at done
    split at done
    all_goals
      obtain ⟨⟨changed,place⟩,made,done⟩ := Option.bind_eq_some_iff.mp done
      obtain ⟨chan,-,done⟩ := Option.bind_eq_some_iff.mp done
      obtain ⟨users,-,done⟩ := Option.bind_eq_some_iff.mp done
      obtain ⟨filled,-,done⟩ := Option.bind_eq_some_iff.mp done
      cases done
    · cases made
      exact chans_keeps net _
    · obtain ⟨name,-,made⟩ := Option.map_eq_some_iff.mp made
      cases made
      exact chans_keeps net _

theorem effect_keeps {scripts : Nat → Network → IrcData → Result} (leaves : Leaves scripts) {handler : Handler}
    (other : handler ≠ .trollNickInUseHandler) (done : effect scripts handler net data = some (later,out)) : SameNicks net later := by
  cases handler with
  | newJoin =>
      obtain ⟨pre,-,done⟩ := Option.bind_eq_some_iff.mp done
      exact onChannel_keeps done
  | newPart =>
      obtain ⟨pre,-,done⟩ := Option.bind_eq_some_iff.mp done
      obtain ⟨name,-,done⟩ := Option.bind_eq_some_iff.mp done
      exact onChannel_keeps done
  | newQuit =>
      obtain ⟨pre,-,done⟩ := Option.bind_eq_some_iff.mp done
      exact eachChannel_keeps done
  | newKick => exact newKick_keeps done
  | trollTrigUpdateTopic =>
      refine recorded_keeps ?_ done
      intro done
      obtain ⟨name,-,done⟩ := Option.bind_eq_some_iff.mp done
      exact onChannel_keeps done
  | trollParseWho =>
      obtain ⟨name,-,done⟩ := Option.bind_eq_some_iff.mp done
      exact onChannel_keeps done
  | channelListPopulate => exact channelListPopulate_keeps done
  | channelSetModes =>
      refine recorded_keeps ?_ done
      intro done
      obtain ⟨name,-,done⟩ := Option.bind_eq_some_iff.mp done
      exact onChannel_keeps done
  | channelSetTopic =>
      refine recorded_keeps ?_ done
      intro done
      obtain ⟨name,-,done⟩ := Option.bind_eq_some_iff.mp done
      exact onChannel_keeps done
  | channelBanlistAdd =>
      refine recorded_keeps ?_ done
      intro done
      obtain ⟨name,-,done⟩ := Option.bind_eq_some_iff.mp done
      exact onChannel_keeps done
  | trollTrigUpdateNick =>
      obtain ⟨pre,-,done⟩ := Option.bind_eq_some_iff.mp done
      exact eachChannel_keeps done
  | trollTrigUpdateMode =>
      obtain ⟨name,-,done⟩ := Option.bind_eq_some_iff.mp done
      exact onChannel_keeps done
  | trollNickInUseHandler => exact absurd rfl other
  | trollUserHostHandler =>
      obtain ⟨joins,-,done⟩ := Option.bind_eq_some_iff.mp done
      cases done
      exact ⟨rfl,rfl,rfl,fun _ => rfl⟩
  | trollTrigChannelRedirect =>
      obtain ⟨name,-,done⟩ := Option.bind_eq_some_iff.mp done
      exact onChannel_keeps done
  | other id => exact leaves id net data later out done

-- The handler of 433 is bound once, to 433.
structure Bound (net : Network) : Prop where
  only : ∀ type, ∀ key ∈ (net.trigs type).items.map triggerKey, key.2 = some .trollNickInUseHandler → type = .raw ∧ key.1 = "433".toList
  once : ∃ before after, (net.trigs .raw).items.map triggerKey = before ++ ("433".toList,some .trollNickInUseHandler) :: after ∧
    ∀ key ∈ before ++ after, key.1 ≠ "433".toList

theorem SameNicks.bound (same : SameNicks net later) (bound : Bound net) : Bound later := by
  constructor
  · intro type key member
    rw [same.trigs type] at member
    exact bound.only type key member
  · rw [same.trigs .raw]
    exact bound.once

theorem andThen_keeps {second : Network → Result} (first : ∀ middle sent, result = some (middle,sent) → SameNicks net middle)
    (next : ∀ middle later out, SameNicks net middle → second middle = some (later,out) → SameNicks middle later)
    (done : andThen result second = some (later,out)) : SameNicks net later := by
  obtain ⟨⟨middle,sent⟩,ran,done⟩ := Option.bind_eq_some_iff.mp done
  obtain ⟨⟨last,more⟩,again,done⟩ := Option.bind_eq_some_iff.mp done
  cases done
  have kept := first middle sent ran
  exact kept.trans (next middle later more kept again)

theorem Bound.others (bound : Bound net) (notRaw : type ≠ .raw) :
    ∀ trig ∈ (net.trigs type).items, trig.handler ≠ some .trollNickInUseHandler := by
  intro trig member same
  exact notRaw (bound.only type (triggerKey trig) (List.mem_map_of_mem member) same).1

section
variable {scripts : Nat → Network → IrcData → Result} (leaves : Leaves scripts)
include leaves

theorem runHandler_keeps {handler : Handler} (other : handler ≠ .trollNickInUseHandler)
    (done : runHandler scripts net data type place handler = some (later,out)) : SameNicks net later := by
  obtain ⟨⟨changed,sent⟩,ran,done⟩ := Option.bind_eq_some_iff.mp done
  cases done
  exact (count_keeps net type place).trans (effect_keeps leaves other ran)

theorem runTrigger_keeps {trig : Trigger Handler} (other : trig.handler ≠ some .trollNickInUseHandler)
    (done : runTrigger scripts net data type place trig = some (later,out)) : SameNicks net later := by
  unfold runTrigger at done
  split at done
  · cases done
    exact .refl _
  · rename_i handler handles
    refine runHandler_keeps leaves ?_ done
    rintro rfl
    exact other handles

theorem eachTrigger_keeps {trigs : List (Trigger Handler)} (others : ∀ trig ∈ trigs, trig.handler ≠ some .trollNickInUseHandler)
    (done : eachTrigger scripts data type hit place trigs net = some (later,out)) : SameNicks net later := by
  induction trigs generalizing place net later out with
  | nil =>
      cases done
      exact .refl _
  | cons trig rest ih =>
      obtain ⟨found,-,done⟩ := Option.bind_eq_some_iff.mp done
      refine andThen_keeps ?_ (fun _ _ _ _ => ih fun other member => others other (by simp [member])) done
      intro middle sent ran
      unfold tryTrigger at ran
      split at ran
      · exact runTrigger_keeps leaves (others trig (by simp)) ran
      · cases ran
        exact .refl _

theorem allTriggers_keeps (bound : Bound net) (notRaw : type ≠ .raw) (done : allTriggers scripts net data type hit = some (later,out)) :
    SameNicks net later := eachTrigger_keeps leaves (bound.others notRaw) done

theorem pubTrigger_keeps {trigs : List (Trigger Handler)} (others : ∀ trig ∈ trigs, trig.handler ≠ some .trollNickInUseHandler)
    (done : pubTrigger scripts data str place trigs net = some (later,out)) : SameNicks net later := by
  induction trigs generalizing place with
  | nil =>
      cases done
      exact .refl _
  | cons trig rest ih =>
      rw [pubTrigger] at done
      split at done
      · exact runTrigger_keeps leaves (others trig (by simp)) done
      · exact ih (fun other member => others other (by simp [member])) done

theorem matchPrivmsg_keeps (bound : Bound net) (done : matchPrivmsg scripts net data = some (later,out)) : SameNicks net later := by
  obtain ⟨target,-,done⟩ := Option.bind_eq_some_iff.mp done
  cases target with
  | none =>
      cases done
      exact .refl _
  | some target =>
      obtain ⟨botnick,-,done⟩ := Option.bind_eq_some_iff.mp done
      split at done
      · exact andThen_keeps (fun _ _ => allTriggers_keeps leaves bound (by decide))
          (fun _ _ _ kept => allTriggers_keeps leaves (kept.bound bound) (by decide)) done
      · refine andThen_keeps ?_ (fun _ _ _ kept => allTriggers_keeps leaves (kept.bound bound) (by decide)) done
        intro middle sent ran
        unfold pubTriggers at ran
        split at ran
        · cases ran
          exact .refl _
        · exact pubTrigger_keeps leaves (bound.others (by decide)) ran

theorem matchJoin_keeps (bound : Bound net) (done : matchJoin scripts net data = some (later,out)) : SameNicks net later := by
  unfold matchJoin at done
  split at done
  · cases done
    exact .refl _
  · obtain ⟨chan,-,done⟩ := Option.bind_eq_some_iff.mp done
    obtain ⟨pre,-,done⟩ := Option.bind_eq_some_iff.mp done
    obtain ⟨trig,first,done⟩ := Option.bind_eq_some_iff.mp done
    unfold tryTrigger at done
    split at done
    · exact runTrigger_keeps leaves (bound.others (by decide) trig (List.mem_of_mem_head? first)) done
    · cases done
      exact .refl _

theorem eachRaw_keeps {trigs : List (Trigger Handler)}
    (others : ∀ trig ∈ trigs, trig.mask = data.command → trig.handler ≠ some .trollNickInUseHandler)
    (done : eachRaw scripts data place trigs net = some (later,out)) : SameNicks net later := by
  induction trigs generalizing place net later out with
  | nil =>
      cases done
      exact .refl _
  | cons trig rest ih =>
      have more : ∀ trig ∈ rest, trig.mask = data.command → trig.handler ≠ some .trollNickInUseHandler :=
        fun other member => others other (by simp [member])
      rw [eachRaw] at done
      split at done
      · rename_i matched
        obtain ⟨handler,handles,done⟩ := Option.bind_eq_some_iff.mp done
        refine andThen_keeps ?_ (fun _ _ _ _ => ih more) done
        intro middle sent ran
        refine runHandler_keeps leaves ?_ ran
        rintro rfl
        exact others trig (by simp) matched handles
      · exact ih more done

theorem triggerMatch_keeps (bound : Bound net) (accepted : data.command ≠ "433".toList)
    (done : triggerMatch scripts net data = some (later,out)) : SameNicks net later := by
  unfold triggerMatch at done
  split at done
  · exact matchPrivmsg_keeps leaves bound done
  · split at done
    · exact matchJoin_keeps leaves bound done
    · split at done
      · exact allTriggers_keeps leaves bound (by decide) done
      · split at done
        · cases done
          exact .refl _
        · split at done
          · exact allTriggers_keeps leaves bound (by decide) done
          · split at done
            · exact allTriggers_keeps leaves bound (by decide) done
            · split at done
              · exact allTriggers_keeps leaves bound (by decide) done
              · refine eachRaw_keeps leaves ?_ done
                intro trig member matched handles
                have is := (bound.only .raw (triggerKey trig) (List.mem_map_of_mem member) handles).2
                exact accepted (matched.symm.trans is)

omit leaves in
theorem serverHost_keeps (net : Network) (data : IrcData) : SameNicks net (serverHost net data).1 := by
  unfold serverHost
  split
  · split
    · exact ⟨rfl,rfl,rfl,fun _ => rfl⟩
    · exact .refl _
  · exact .refl _

-- Every message but 433 leaves the nicks as they are.
theorem parseIrcLine_keeps (bound : Bound net) (accepted : ∀ data, decode net.nick line = some data → data.command ≠ "433".toList)
    (done : parseIrcLine scripts net line = some (later,out)) : SameNicks net later := by
  obtain ⟨data,read,done⟩ := Option.bind_eq_some_iff.mp done
  refine andThen_keeps ?_ (fun _ _ _ kept => triggerMatch_keeps leaves (kept.bound bound) (accepted data read)) done
  intro middle sent ran
  split at ran
  · obtain ⟨server,-,ran⟩ := Option.bind_eq_some_iff.mp ran
    cases server with
    | none =>
        cases ran
        exact .refl _
    | some server =>
        cases ran
        exact .refl _
  · split at ran
    · have served := serverHost_keeps net data
      rwa [Option.some.inj ran] at served
    · cases ran
      exact .refl _

end

-- A 433 makes the alternative nick the bot's nick and asks for it twice.
theorem parseIrcLine_refused (scripts : Nat → Network → IrcData → Result) (bound : Bound net) (read : decode net.nick line = some data) (refused : data.command = "433".toList)
    (altnick : net.altnick = some alt) :
    ∃ later place, parseIrcLine scripts net line =
        some (later,[.ran .raw place,tsocketPrintf ("NICK ".toList ++ alt),tsocketPrintf ("NICK ".toList ++ alt)]) ∧
      SameNicks { net with botnick := some alt } later := by
  obtain ⟨before,after,keys,others⟩ := bound.once
  have matched : triggerMatch scripts net data = eachRaw scripts data 0 (net.trigs .raw).items net := by
    unfold triggerMatch
    rw [refused]
    rfl
  have single : eachRaw scripts data 0 (net.trigs .raw).items net =
      runHandler scripts net data .raw (0 + before.length) .trollNickInUseHandler := by
    rw [← refused] at keys others
    exact raw_single 0 before (net.trigs .raw).items keys others net
  refine ⟨{ countUse net .raw (0 + before.length) with botnick := some alt },0 + before.length,?_,⟨rfl,rfl,rfl,?_⟩⟩
  swap
  · exact fun type => count_keys .raw type _
  have given : (countUse net .raw (0 + before.length)).altnick = some alt := altnick
  simp only [parseIrcLine,read,Option.bind_eq_bind,Option.bind_some,dispatch_other refused (by decide) (by decide),matched,single,
    runHandler,effect,trollNickInUseHandler,given]

-- What the bot and the server say to each other about nicks. `pending` are the NICK commands of the
-- bot that the server has not answered.
structure Session where
  net : Network
  nick : Option Str
  pending : List Str

def nickCommand : Output → Option Str
  | .sent line => if startsWith "NICK ".toList line then some (line.drop 5).dropLast else none
  | _ => none

def nickCommands (out : List Output) : List Str := out.filterMap nickCommand

def params (msg : Message) : List Str := msg.middles ++ msg.trailing.toList

def originNick : Origin → Str
  | .server name => name
  | .mask nick _ _ => nick

-- What happens to a session: the bot registers, or the server says a line. It accepts or refuses a NICK
-- command, it renames the bot, or it says something else.
inductive SessionEvent where
  | register
  | accept (msg : Message)
  | refuse (msg : Message)
  | rename (msg : Message)
  | other (line : Str)

def Session.hear (scripts : Nat → Network → IrcData → Result) (session : Session) (line : Str) (nick : Option Str) (pending : List Str) :
    Option Session := do
  let (net,out) ← parseIrcLine scripts session.net line
  some ⟨net,nick,pending ++ nickCommands out⟩

-- irc_ball_start_rolling asks for the configured nick.
def Session.step (scripts : Nat → Network → IrcData → Result) (session : Session) : SessionEvent → Option Session
  | .register => some { session with nick := none, pending := nickCommands [tsocketPrintf ("NICK ".toList ++ session.net.nick)] }
  | .accept msg => session.hear scripts msg.render session.pending.head? session.pending.tail
  | .refuse msg => session.hear scripts msg.render session.nick session.pending.tail
  | .rename msg => session.hear scripts msg.render (params msg).head? session.pending
  | .other line => session.hear scripts line session.nick session.pending

-- A NICK message for the bot.
def Renames (msg : Message) (old new : Option Str) : Prop :=
  msg.command = "NICK".toList ∧ (∃ origin, msg.origin = some origin ∧ some (originNick origin) = old) ∧ (params msg).head? = new

-- What a server can say.
def SessionEvent.Possible (session : Session) : SessionEvent → Prop
  | .register => True
  | .accept msg => msg.Readable ∧ session.pending ≠ [] ∧
      (session.nick = none ∧ msg.command = "001".toList ∧ msg.middles.head? = session.pending.head? ∨
        Renames msg session.nick session.pending.head?)
  | .refuse msg => msg.Readable ∧ session.pending ≠ [] ∧ msg.command = "433".toList ∧ msg.middles[1]? = session.pending.head?
  | .rename msg => msg.Readable ∧ Renames msg session.nick (params msg).head? ∧ params msg ≠ []
  | .other line => ∀ data, decode session.net.nick line = some data →
      data.command ≠ "001".toList ∧ data.command ≠ "433".toList ∧
      (data.command = "NICK".toList → ∀ pre nick, data.pre = some pre → pre.nick = some nick → session.nick ≠ some nick)

-- Where no command is unanswered, the bot knows its nick.
def Session.Knows (session : Session) : Prop :=
  session.pending = [] → ∃ botnick, session.net.botnick = some botnick ∧ ∀ nick ∈ session.nick, nick = botnick

-- The nick that the server gives the bot is the one the bot has, or there is another command to
-- answer; and a nick is only refused where there is another.
def SessionEvent.Followed (session : Session) : SessionEvent → Prop
  | .accept _ => session.pending.tail = [] → session.pending.head? = session.net.botnick
  | .refuse _ => session.net.altnick ≠ none
  | .rename msg => session.pending = [] → (params msg).head? = session.net.botnick
  | _ => True

-- A configuration with a nick, before the bot connects.
structure Session.Started (session : Session) : Prop where
  bound : Bound session.net
  botnick : session.net.botnick = some session.net.nick
  unknown : session.nick = none
  silent : session.pending = []

structure Session.Agrees (session : Session) : Prop where
  bound : Bound session.net
  botnick : session.net.botnick ≠ none
  knows : session.pending = [] → ∀ nick ∈ session.nick, session.net.botnick = some nick

section
variable {scripts : Nat → Network → IrcData → Result}

theorem hear_parts (taken : Session.hear scripts session line nick pending = some next) :
    ∃ out, parseIrcLine scripts session.net line = some (next.net,out) ∧ next.nick = nick ∧ next.pending = pending ++ nickCommands out := by
  obtain ⟨⟨net,out⟩,ran,taken⟩ := Option.bind_eq_some_iff.mp taken
  cases taken
  exact ⟨out,ran,rfl,rfl⟩

theorem readable_command (readable : Message.Readable msg) (other : msg.command ≠ "433".toList) (netNick : Str) :
    ∀ data, decode netNick msg.render = some data → data.command ≠ "433".toList := by
  intro data read
  obtain ⟨data',read',out⟩ := decode_readout netNick msg readable
  rw [read] at read'
  cases read'
  rw [out.command]
  exact other

theorem command_sent (rest : Str) : nickCommand (tsocketPrintf ("NICK ".toList ++ rest)) ≠ none := by
  have shown : (tsocketPrintf ("NICK ".toList ++ rest)) = .sent ("NICK ".toList ++ (rest.take 2042 ++ ['\n'])) := rfl
  have starts : startsWith "NICK ".toList ("NICK ".toList ++ (rest.take 2042 ++ ['\n'])) = true :=
    List.isPrefixOf_iff_prefix.mpr (List.prefix_append _ _)
  rw [shown,nickCommand,if_pos starts]
  exact Option.some_ne_none _

theorem commands_sent (member : tsocketPrintf ("NICK ".toList ++ rest) ∈ out) : nickCommands out ≠ [] := by
  intro none'
  exact command_sent rest (List.filterMap_eq_nil_iff.mp none' _ member)

-- A line that leaves the nicks alone, and after which the server knows the bot by `nick`.
theorem hear_agrees (leaves : Leaves scripts) (agrees : Session.Agrees session)
    (accepted : ∀ data, decode session.net.nick line = some data → data.command ≠ "433".toList)
    (known : pending = [] → ∀ own ∈ nick, session.net.botnick = some own)
    (taken : session.hear scripts line nick pending = some next) : next.Agrees := by
  obtain ⟨out,ran,sameNick,samePending⟩ := hear_parts taken
  have kept := parseIrcLine_keeps leaves agrees.bound accepted ran
  refine ⟨kept.bound agrees.bound,by rw [kept.botnick]; exact agrees.botnick,?_⟩
  intro none'
  rw [samePending] at none'
  rw [sameNick,kept.botnick]
  exact known (List.append_eq_nil_iff.mp none').1

theorem refuse_goes (scripts : Nat → Network → IrcData → Result) (agrees : Session.Agrees session) (possible : SessionEvent.Possible session (.refuse msg))
    (followed : session.net.altnick ≠ none) : ∃ next, session.step scripts (.refuse msg) = some next ∧ next.Agrees := by
  obtain ⟨readable,-,refused,-⟩ := possible
  obtain ⟨alt,altnick⟩ := Option.ne_none_iff_exists'.mp followed
  obtain ⟨data,read,out⟩ := decode_readout session.net.nick msg readable
  obtain ⟨later,place,ran,kept⟩ := parseIrcLine_refused scripts agrees.bound read (out.command.trans refused) altnick
  let asks := tsocketPrintf ("NICK ".toList ++ alt)
  refine ⟨⟨later,session.nick,session.pending.tail ++ nickCommands [.ran .raw place,asks,asks]⟩,?_,?_⟩
  · simp only [Session.step,Session.hear,ran,Option.bind_eq_bind,Option.bind_some]
    rfl
  have again : SameNicks { session.net with botnick := some alt } later := kept
  refine ⟨?_,by rw [again.botnick]; simp,?_⟩
  · exact again.bound ⟨agrees.bound.only,agrees.bound.once⟩
  · intro none'
    exact absurd (List.append_eq_nil_iff.mp none').2 (commands_sent (show asks ∈ _ by simp))

theorem step_agrees (leaves : Leaves scripts) (agrees : Session.Agrees session) (possible : SessionEvent.Possible session event)
    (followed : event.Followed session) (taken : session.step scripts event = some next) : next.Agrees := by
  cases event with
  | register =>
      cases taken
      refine ⟨agrees.bound,agrees.botnick,?_⟩
      intro none'
      exact absurd none' (commands_sent (List.mem_singleton.mpr rfl))
  | accept msg =>
      obtain ⟨readable,some',form⟩ := possible
      have other : msg.command ≠ "433".toList := by
        rcases form with ⟨-,welcome,-⟩ | renames
        · rw [welcome]
          decide
        · rw [renames.1]
          decide
      refine hear_agrees leaves agrees (readable_command readable other _) ?_ taken
      intro last own first
      exact (followed last).symm.trans first
  | refuse msg =>
      obtain ⟨next',taken',agrees'⟩ := refuse_goes scripts agrees possible followed
      rw [taken] at taken'
      cases taken'
      exact agrees'
  | rename msg =>
      obtain ⟨readable,renames,-⟩ := possible
      have other : msg.command ≠ "433".toList := by
        rw [renames.1]
        decide
      refine hear_agrees leaves agrees (readable_command readable other _) ?_ taken
      intro none' own first
      exact (followed none').symm.trans first
  | other line =>
      exact hear_agrees leaves agrees (fun data read => (possible data read).2.1) agrees.knows taken

end

-- The bot knows its nick in every state of a run in which the server leaves it the nick it has taken.
theorem botnick_known (scripts : Nat → Network → IrcData → Result) (leaves : Leaves scripts) (session : Session) (events : List SessionEvent)
    (started : session.Started)
    (meets : Meets (Session.step scripts) (fun session event => event.Possible session ∧ event.Followed session) session events) :
    Through (Session.step scripts) Session.Knows (fun event => ∀ msg, event ≠ .refuse msg) session events := by
  have agrees : session.Agrees := by
    refine ⟨started.bound,by rw [started.botnick]; simp,?_⟩
    rw [started.unknown]
    exact fun _ => nofun
  refine through_invariant Session.Agrees ?_ ?_ ?_ agrees meets
  · exact fun st event next agrees allowed taken => step_agrees leaves agrees allowed.1 allowed.2 taken
  · rintro st event agrees ⟨possible,followed⟩ stops msg rfl
    obtain ⟨next,taken,-⟩ := refuse_goes scripts agrees possible followed
    rw [taken] at stops
    cases stops
  · intro st agrees none'
    obtain ⟨botnick,is⟩ := Option.ne_none_iff_exists'.mp agrees.botnick
    refine ⟨botnick,is,?_⟩
    intro nick known
    have same := agrees.knows none' nick known
    rw [is] at same
    exact (Option.some.inj same).symm

def startSession (altnick : Option Str) : Session :=
  ⟨⟨"bot".toList,some "bot".toList,altnick,none,.idle,[],startNetwork.trigs⟩,none,[]⟩

def spoken (origin : Origin) (command : Str) (middles : List Str) (text : Str) : Message := ⟨some origin,command,middles,some text⟩

def botMask (nick : Str) : Origin := .mask nick "b".toList "h".toList

def inUse : SessionEvent := .refuse (spoken (.server "irc".toList) "433".toList ["*".toList,"bot".toList] "In use".toList)
def welcomed (nick : Str) : SessionEvent := .accept (spoken (.server "irc".toList) "001".toList [nick] "Welcome".toList)
def granted : SessionEvent := .accept (spoken (botMask "bot_".toList) "NICK".toList [] "bot_".toList)
def guested : SessionEvent := .rename (spoken (botMask "bot".toList) "NICK".toList [] "Guest1".toList)

theorem noScripts_leaves : Leaves noScripts := by
  intro id net data later out done
  cases done
  exact .refl _

theorem start_only : ∀ type, ∀ key ∈ (startNetwork.trigs type).items.map triggerKey,
    key.2 = some .trollNickInUseHandler → type = .raw ∧ key.1 = "433".toList := by
  intro type
  cases type
  all_goals decide

theorem startSession_started (altnick : Option Str) : (startSession altnick).Started :=
  ⟨⟨start_only,⟨(defaultRaw.take 7).map triggerKey,(defaultRaw.drop 8).map triggerKey,rfl,by decide⟩⟩,rfl,rfl,rfl⟩

theorem spoken_readable (well : Origin.WellFormed origin ∧ ' ' ∉ origin.text) (word : Word command) (words : ∀ middle ∈ middles, Word middle)
    (clean : ∀ c ∈ (spoken origin command middles rest).render, c ≠ nul ∧ c ≠ '\r' ∧ c ≠ '\n') :
    (spoken origin command middles rest).Readable := by
  refine ⟨?_,word,words,.inr (by simp [spoken]),clean⟩
  rintro _ ⟨⟩
  exact well

-- What a run has come to.
structure Facts where
  nick : Option Str
  pending : List Str
  botnick : Option Str
  altnick : Option Str
deriving DecidableEq

def Session.facts (session : Session) : Facts := ⟨session.nick,session.pending,session.net.botnick,session.net.altnick⟩

theorem facts_reached (facts : Facts) (reached : run (Session.step noScripts) start sent = some session)
    (ran : (run (Session.step noScripts) start sent).map Session.facts = some facts) :
    session.nick = facts.nick ∧ session.pending = facts.pending ∧ session.net.botnick = facts.botnick ∧ session.net.altnick = facts.altnick := by
  rw [reached] at ran
  obtain rfl := Option.some.inj ran
  exact ⟨rfl,rfl,rfl,rfl⟩

theorem inUse_readable : (spoken (.server "irc".toList) "433".toList ["*".toList,"bot".toList] "In use".toList).Readable :=
  spoken_readable ⟨show '!' ∉ "irc".toList by decide,by decide⟩ (by unfold Word; decide) (by unfold Word; decide) (by decide)

theorem welcomed_readable : ∀ nick ∈ ["bot".toList,"bot_".toList],
    (spoken (.server "irc".toList) "001".toList [nick] "Welcome".toList).Readable := by
  intro nick member
  refine spoken_readable ⟨show '!' ∉ "irc".toList by decide,by decide⟩ (by unfold Word; decide) ?_ ?_
  · unfold Word
    revert nick
    decide
  · revert nick
    decide

theorem granted_readable : (spoken (botMask "bot_".toList) "NICK".toList [] "bot_".toList).Readable :=
  spoken_readable ⟨⟨by decide,by decide⟩,by decide⟩ (by unfold Word; decide) nofun (by decide)

theorem taken_readable : (spoken (botMask "bot".toList) "NICK".toList [] "Guest1".toList).Readable :=
  spoken_readable ⟨⟨by decide,by decide⟩,by decide⟩ (by unfold Word; decide) nofun (by decide)

-- The bot's nick is in use, and it gets the other one, twice.
theorem alternative_known : Through (Session.step noScripts) Session.Knows (fun event => ∀ msg, event ≠ .refuse msg)
    (startSession (some "bot_".toList)) [.register,inUse,welcomed "bot_".toList,granted] := by
  refine botnick_known noScripts noScripts_leaves _ _ (startSession_started _) ⟨⟨trivial,trivial⟩,?_⟩
  intro first one
  have start : run (Session.step noScripts) (startSession (some "bot_".toList)) [.register] = some first := by
    rw [run,one]
    rfl
  obtain ⟨nick1,pending1,botnick1,altnick1⟩ :=
    facts_reached ⟨none,["bot".toList],some "bot".toList,some "bot_".toList⟩ start (by decide +kernel)
  refine ⟨⟨⟨inUse_readable,by rw [pending1]; decide,rfl,by rw [pending1]; rfl⟩,by show first.net.altnick ≠ none; rw [altnick1]; decide⟩,?_⟩
  intro second two
  have refused : run (Session.step noScripts) (startSession (some "bot_".toList)) [.register,inUse] = some second := by
    rw [run,one,Option.bind_some,run,two]
    rfl
  obtain ⟨nick2,pending2,botnick2,altnick2⟩ :=
    facts_reached ⟨none,["bot_".toList,"bot_".toList],some "bot_".toList,some "bot_".toList⟩ refused (by decide +kernel)
  refine ⟨⟨⟨welcomed_readable _ (by decide),by rw [pending2]; decide,.inl ⟨nick2,rfl,by rw [pending2]; rfl⟩⟩,
    by show second.pending.tail = [] → _; rw [pending2]; intro spent; cases spent⟩,?_⟩
  intro third three
  have welcome : run (Session.step noScripts) (startSession (some "bot_".toList)) [.register,inUse,welcomed "bot_".toList] = some third := by
    rw [run,one,Option.bind_some,run,two,Option.bind_some,run,three]
    rfl
  obtain ⟨nick3,pending3,botnick3,altnick3⟩ :=
    facts_reached ⟨some "bot_".toList,["bot_".toList],some "bot_".toList,some "bot_".toList⟩ welcome (by decide +kernel)
  refine ⟨⟨⟨granted_readable,by rw [pending3]; decide,.inr ⟨rfl,⟨_,rfl,nick3.symm⟩,by rw [pending3]; rfl⟩⟩,?_⟩,fun _ _ => trivial⟩
  intro last
  rw [pending3,botnick3]
  rfl

-- The server gives the bot another nick.
theorem renaming_missed : ¬∀ (scripts : Nat → Network → IrcData → Result) (session : Session) (events : List SessionEvent), Leaves scripts →
    session.Started → Meets (Session.step scripts) (fun session event => event.Possible session) session events →
    Through (Session.step scripts) Session.Knows (fun event => ∀ msg, event ≠ .refuse msg) session events := by
  intro all
  have possible : Meets (Session.step noScripts) (fun session event => event.Possible session) (startSession none)
      [.register,welcomed "bot".toList,guested] := by
    refine ⟨trivial,?_⟩
    intro first one
    have start : run (Session.step noScripts) (startSession none) [.register] = some first := by
      rw [run,one]
      rfl
    obtain ⟨nick1,pending1,-,-⟩ := facts_reached ⟨none,["bot".toList],some "bot".toList,none⟩ start (by decide +kernel)
    refine ⟨⟨welcomed_readable _ (by decide),by rw [pending1]; decide,.inl ⟨nick1,rfl,by rw [pending1]; rfl⟩⟩,?_⟩
    intro second two
    have welcome : run (Session.step noScripts) (startSession none) [.register,welcomed "bot".toList] = some second := by
      rw [run,one,Option.bind_some,run,two]
      rfl
    obtain ⟨nick2,-,-,-⟩ := facts_reached ⟨some "bot".toList,[],some "bot".toList,none⟩ welcome (by decide +kernel)
    exact ⟨⟨taken_readable,⟨rfl,⟨_,rfl,nick2.symm⟩,rfl⟩,by decide⟩,fun _ _ => trivial⟩
  have through := all noScripts (startSession none) [.register,welcomed "bot".toList,guested] noScripts_leaves (startSession_started none) possible
  have ran : (run (Session.step noScripts) (startSession none) [.register,welcomed "bot".toList,guested]).map Session.facts =
      some ⟨some "Guest1".toList,[],some "bot".toList,none⟩ := by decide +kernel
  obtain ⟨last,reached,-⟩ := Option.map_eq_some_iff.mp ran
  obtain ⟨nick,pending,botnick,-⟩ := facts_reached _ reached ran
  obtain ⟨own,is,known⟩ := through_reached through reached pending
  have same := known "Guest1".toList nick
  rw [botnick,← same] at is
  exact absurd is (by decide)

end Trollbot.Irc
