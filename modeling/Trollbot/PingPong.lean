import Trollbot.DispatchRule
import Trollbot.HandlerEffects
import Trollbot.LineIn
import Trollbot.Stackable

-- The pings of a server, from the bytes it sends to the answers.
namespace Trollbot.Irc
open CBuffer IrcParse LineIn Framing

-- What several calls of irc_in receive is read and answered.
def hearBytes (scripts : Nat → Network → IrcData → Result) (net : Network) (chunks : List Str) : Result := do
  let (lines,_) ← lineRun .irc .start chunks
  hearLines scripts lines net

def isPong : Output → Bool
  | .sent line => "PONG ".toList.isPrefixOf line
  | _ => false

-- The answer to a message: the first word of the text behind the colon goes back.
def answer (msg : Message) : List Output :=
  if msg.command = "PING".toList then
    ((said msg).map (fun text => tsocketPrintf ("PONG :".toList ++ text.takeWhile (fun c => c ≠ ' ') ++ ['\n']))).toList
  else []

-- The messages as a server sends them.
def stream (msgs : List Message) : Str := endLines ['\r'] '\n' (msgs.map Message.render)

-- Handlers that are not followed here answer no ping.
structure Unanswering (scripts : Nat → Network → IrcData → Result) : Prop where
  leaves : Leaves scripts
  silent : ∀ id net data later out, scripts id net data = some (later,out) → ∀ line ∈ out, isPong line = false

-- What a handler may do: it sends no PONG.
structure Silent (net : Network) (out : List Output) (later : Network) : Prop where
  triggers : SameTriggers net later
  nick : later.nick = net.nick
  silent : ∀ line ∈ out, isPong line = false

theorem printed_silent (c : Char) (line : Str) (other : c ≠ 'P') : isPong (tsocketPrintf (c :: line)) = false := by
  have front : (c :: line).take 2047 ++ ['\n'] = c :: (line.take 2046 ++ ['\n']) := rfl
  have differ : ('P' == c) = false := by simpa using Ne.symm other
  rw [tsocketPrintf,front,isPong]
  change ('P' == c && "ONG ".toList.isPrefixOf _) = false
  rw [differ,Bool.false_and]

theorem pong_printed (line : Str) : isPong (tsocketPrintf ("PONG :".toList ++ line)) = true := by
  have front : ("PONG :".toList ++ line).take 2047 ++ ['\n'] = "PONG ".toList ++ (':' :: line.take 2041 ++ ['\n']) := rfl
  rw [tsocketPrintf,front,isPong]
  exact List.isPrefixOf_iff_prefix.mpr (List.prefix_append _ _)

theorem serverHost_silent (net : Network) (data : IrcData) :
    (serverHost net data).1.nick = net.nick ∧ (serverHost net data).2.filter isPong = [] := by
  unfold serverHost
  split
  · split <;> exact ⟨rfl,rfl⟩
  · exact ⟨rfl,rfl⟩

theorem joinLines_silent (name : Str) : ∀ line ∈ joinLines name, isPong line = false := by
  intro line member
  simp only [joinLines,List.map_cons,List.map_nil,List.mem_cons,List.not_mem_nil,or_false] at member
  rcases member with rfl | rfl | rfl | rfl | rfl
  all_goals exact printed_silent _ _ (by decide)

theorem joinChannels_silent (made : joinChannels net = some joins) : ∀ line ∈ joins, isPong line = false := by
  unfold joinChannels at made
  split at made
  · cases made
    simp
  · obtain ⟨names,-,made⟩ := Option.bind_eq_some_iff.mp made
    cases made
    intro line member
    obtain ⟨text,-,rfl⟩ := Option.map_eq_some_iff.mp (Option.mem_toList.mp member)
    exact printed_silent _ _ (by decide)

section
variable {scripts : Nat → Network → IrcData → Result} (unanswering : Unanswering scripts)
include unanswering

theorem effect_silent (done : effect scripts handler net data = some (later,out)) : ∀ line ∈ out, isPong line = false := by
  have none' : out = [] → ∀ line ∈ out, isPong line = false := by
    rintro rfl line member
    cases member
  cases handler with
  | newJoin =>
      rcases (newJoin_effect done).2 with quiet | ⟨-,-,name,-,rfl⟩
      · exact none' quiet
      · exact joinLines_silent name
  | newPart => exact none' (newPart_effect done).2
  | newQuit => exact none' (newQuit_effect done).2
  | newKick =>
      rcases (newKick_effect done).2 with quiet | ⟨name,-,rfl⟩
      · exact none' quiet
      · intro line member
        rw [List.mem_singleton.mp member]
        exact printed_silent _ _ (by decide)
  | trollTrigUpdateTopic => exact none' (trollTrigUpdateTopic_effect done).2
  | trollParseWho => exact none' (trollParseWho_effect done).2
  | channelListPopulate => exact none' (channelListPopulate_effect done).2
  | channelSetModes => exact none' (channelSetModes_effect done).2
  | channelSetTopic => exact none' (channelSetTopic_effect done).2
  | channelBanlistAdd => exact none' (channelBanlistAdd_effect done).2
  | trollTrigUpdateNick => exact none' (trollTrigUpdateNick_effect done).2
  | trollTrigUpdateMode => exact none' (trollTrigUpdateMode_effect done).2
  | trollNickInUseHandler =>
      obtain ⟨altnick,-,done⟩ := Option.bind_eq_some_iff.mp done
      cases done
      intro line member
      simp only [List.mem_cons,List.not_mem_nil,or_false,or_self] at member
      rw [member]
      exact printed_silent _ _ (by decide)
  | trollUserHostHandler =>
      obtain ⟨joins,made,done⟩ := Option.bind_eq_some_iff.mp done
      cases done
      intro line member
      rcases List.mem_cons.mp member with rfl | joined
      · exact printed_silent _ _ (by decide)
      · exact joinChannels_silent made line joined
  | trollTrigChannelRedirect => exact none' (trollTrigChannelRedirect_effect done).2
  | other id => exact unanswering.silent id net data later out done

theorem runHandler_silent (done : runHandler scripts net data type place handler = some (later,out)) : Silent net out later := by
  obtain ⟨⟨changed,sent⟩,ran,done⟩ := Option.bind_eq_some_iff.mp done
  cases done
  have silent : ∀ line ∈ Output.ran type place :: sent, isPong line = false := by
    intro line member
    rcases List.mem_cons.mp member with rfl | later
    · rfl
    · exact effect_silent unanswering ran line later
  by_cases refused : handler = .trollNickInUseHandler
  · subst refused
    obtain ⟨altnick,-,made⟩ := Option.bind_eq_some_iff.mp ran
    cases made
    exact ⟨fun other => count_keys type other place,rfl,silent⟩
  · have same := (count_keeps net type place).trans (effect_keeps unanswering.leaves refused ran)
    exact ⟨same.trigs,same.nick,silent⟩

theorem silent_rule (command : Str) (data : IrcData) : Rule scripts command data (fun _ _ _ => True) Silent where
  idle net := ⟨fun _ => rfl,rfl,by simp⟩
  andThen net out middle more later first second := by
    refine ⟨fun type => (second.triggers type).trans (first.triggers type),second.nick.trans first.nick,?_⟩
    intro line member
    rcases List.mem_append.mp member with front | behind
    · exact first.silent line front
    · exact second.silent line behind
  same _ _ _ does := does.triggers
  ran _ _ _ _ _ _ _ _ _ done := runHandler_silent unanswering done

-- Of the lines that a message makes the bot send, those that are PONGs are the answer.
theorem message_answered (msg : Message) (well : msg.Readable) (done : parseIrcLine scripts net msg.render = some (later,out)) :
    out.filter isPong = answer msg ∧ later.nick = net.nick := by
  obtain ⟨data,read,done⟩ := Option.bind_eq_some_iff.mp done
  obtain ⟨data',read',readout⟩ := decode_readout net.nick msg well
  obtain rfl : data = data' := Option.some.inj (read.symm.trans read')
  obtain ⟨⟨middle,sent⟩,first,done⟩ := Option.bind_eq_some_iff.mp done
  obtain ⟨⟨last,more⟩,matched,done⟩ := Option.bind_eq_some_iff.mp done
  cases done
  have dispatched := (silent_rule unanswering data.command data).triggers (fun _ _ _ => trivial) matched
  have quiet : more.filter isPong = [] := by
    rw [List.filter_eq_nil_iff]
    intro line member
    simp [dispatched.silent line member]
  rw [List.filter_append,quiet,List.append_nil,dispatched.nick]
  rw [readout.command] at first
  split at first
  · rename_i ping
    obtain ⟨word,here,first⟩ := Option.bind_eq_some_iff.mp first
    cases spoken : said msg with
    | none =>
        rw [(readout.silent (said_none.mp spoken)).1] at here
        cases here
    | some text =>
        obtain ⟨trailing,some'⟩ := said_some.mp spoken
        rw [decode_first net.nick msg well trailing some' read] at here
        cases here
        cases first
        rw [answer,if_pos ping,spoken]
        exact ⟨List.filter_eq_self.mpr (fun line member => by rw [List.mem_singleton.mp member]; exact pong_printed _),rfl⟩
  · rename_i other
    rw [answer,if_neg other]
    split at first
    · obtain ⟨same,quiet⟩ := serverHost_silent net data
      rw [Option.some.inj first] at same quiet
      exact ⟨quiet,same⟩
    · cases first
      exact ⟨rfl,rfl⟩

theorem lines_answered (msgs : List Message) (well : ∀ msg ∈ msgs, msg.Readable)
    (done : hearLines scripts (msgs.map Message.render) net = some (later,out)) : out.filter isPong = msgs.flatMap answer := by
  induction msgs generalizing net later out with
  | nil =>
      cases done
      rfl
  | cons msg rest ih =>
      obtain ⟨⟨middle,sent⟩,first,done⟩ := Option.bind_eq_some_iff.mp done
      obtain ⟨⟨last,more⟩,others,done⟩ := Option.bind_eq_some_iff.mp done
      cases done
      have here := (message_answered unanswering msg (well msg (by simp)) first).1
      have behind := ih (fun other member => well other (by simp [member])) others
      rw [List.filter_append,here,behind,List.flatMap_cons]

end

-- A message's line has no line break in it.
theorem render_line (well : Message.Readable msg) : msg.render ≠ [] ∧ ∀ c ∈ msg.render, isTerm c = false := by
  constructor
  · intro none'
    have command := well.command.1
    simp [Message.render] at none'
    exact command none'.2.1
  · intro c member
    obtain ⟨-,carriage,feed⟩ := well.clean c member
    simp [isTerm,carriage,feed]

theorem stream_lines (msgs : List Message) (well : ∀ msg ∈ msgs, msg.Readable) (cut : Cut (stream msgs) chunks)
    (covered : trackedRun .irc .start chunks = true) : ∃ last, lineRun .irc .start chunks = some (msgs.map Message.render,last) := by
  obtain ⟨last,ran⟩ := lineRun_chops start_kept cut.2 covered
  have ends : LinesEnd isTerm isNewline ['\r'] '\n' (msgs.map Message.render) := by
    refine ⟨by simp [isTerm,isNewline],by simp [isTerm,isNewline],?_⟩
    intro line member
    obtain ⟨msg,inside,rfl⟩ := List.mem_map.mp member
    exact render_line (well msg inside)
  have fed := feedAll_ended newline_isTerm ends (pending .start) chunks (by simp [pending,LineBuf.start]) (by simpa [stream,pending,LineBuf.start] using cut.1)
  exact ⟨last,by rw [ran,fed]⟩

theorem ping_answered (scripts : Nat → Network → IrcData → Result) (net : Network) (msg : Message) (well : msg.Readable)
    (ping : msg.command = "PING".toList ∧ said msg ≠ none) (unbound : ∀ trig ∈ (net.trigs .raw).items, trig.mask ≠ "PING".toList) :
    parseIrcLine scripts net msg.render = some (net,answer msg) := by
  obtain ⟨data,read,readout⟩ := decode_readout net.nick msg well
  obtain ⟨text,spoken⟩ := Option.ne_none_iff_exists'.mp ping.2
  obtain ⟨trailing,some'⟩ := said_some.mp spoken
  have command : data.command = "PING".toList := readout.command.trans ping.1
  have ponged : pong net data = some (net,answer msg) := by
    rw [pong,decode_first net.nick msg well trailing some' read,answer,if_pos ping.1,spoken]
    rfl
  have matched : triggerMatch scripts net data = some (net,[]) := by
    unfold triggerMatch
    rw [command]
    exact raw_none 0 _ (by rwa [command]) net
  rw [parseIrcLine,read]
  change dispatch scripts net data = _
  rw [dispatch,if_pos command,ponged]
  simp only [andThen,Option.bind_eq_bind,Option.bind_some,matched,List.append_nil]

theorem pings_heard (scripts : Nat → Network → IrcData → Result) (net : Network) (msgs : List Message) (well : ∀ msg ∈ msgs, msg.Readable)
    (pings : ∀ msg ∈ msgs, msg.command = "PING".toList ∧ said msg ≠ none)
    (unbound : ∀ trig ∈ (net.trigs .raw).items, trig.mask ≠ "PING".toList) :
    hearLines scripts (msgs.map Message.render) net = some (net,msgs.flatMap answer) := by
  induction msgs with
  | nil => rfl
  | cons msg rest ih =>
      have first := ping_answered scripts net msg (well msg (by simp)) (pings msg (by simp)) unbound
      have others := ih (fun other member => well other (by simp [member])) (fun other member => pings other (by simp [member]))
      rw [List.map_cons,hearLines,first]
      simp only [andThen,Option.bind_eq_bind,Option.bind_some,others,List.flatMap_cons]

-- However the bytes of a server's messages are cut, the PONGs that the bot sends are the answers to the pings, in their order;
-- and pings with a text go through.
theorem pings_answered (scripts : Nat → Network → IrcData → Result) (unanswering : Unanswering scripts) (net : Network) (msgs : List Message)
    (well : ∀ msg ∈ msgs, msg.Readable) (cut : Cut (stream msgs) chunks) (covered : trackedRun .irc .start chunks = true) :
    (∀ later out, hearBytes scripts net chunks = some (later,out) → out.filter isPong = msgs.flatMap answer) ∧
      ((∀ msg ∈ msgs, msg.command = "PING".toList ∧ said msg ≠ none) → (∀ trig ∈ (net.trigs .raw).items, trig.mask ≠ "PING".toList) →
        hearBytes scripts net chunks = some (net,msgs.flatMap answer)) := by
  obtain ⟨last,lines⟩ := stream_lines msgs well cut covered
  rw [hearBytes,lines]
  constructor
  · intro later out done
    exact lines_answered unanswering msgs well done
  · intro pings unbound
    exact pings_heard scripts net msgs well pings unbound

-- Two pings in three pieces.
def twoPings : List Message := [⟨none,"PING".toList,[],some "irc.a".toList⟩,⟨some (.server "irc.a".toList),"PING".toList,[],some "x y".toList⟩]

theorem two_pings_answered : hearBytes noScripts startNetwork ["PING :i".toList,"rc.a\r\n:irc.a PING".toList," :x y\r\n".toList] =
    some (startNetwork,[tsocketPrintf "PONG :irc.a\n".toList,tsocketPrintf "PONG :x\n".toList]) := by
  have unanswering : Unanswering noScripts := by
    refine ⟨noScripts_leaves,?_⟩
    intro id net data later out done
    cases done
    simp
  have well : ∀ msg ∈ twoPings, msg.Readable := by
    intro msg member
    simp only [twoPings,List.mem_cons,List.not_mem_nil,or_false] at member
    rcases member with rfl | rfl
    · exact ⟨by simp,by unfold Word; decide,by simp,by decide,by decide⟩
    · refine ⟨?_,by unfold Word; decide,by simp,by decide,by decide⟩
      intro origin same
      cases same
      exact ⟨by unfold Origin.WellFormed; decide,by decide⟩
  exact (pings_answered noScripts unanswering startNetwork twoPings well (by decide) (by decide +kernel)).2 (by decide) (by decide)

end Trollbot.Irc
