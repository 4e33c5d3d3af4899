import Trollbot.CleanReads
import Trollbot.DefaultHandlers
import Trollbot.PingPong

-- The lines that the bot sends by itself, as the server reads them.
namespace Trollbot.Irc
open CBuffer IrcParse LineIn Framing Decimal Passwords

-- What the lines of the handlers begin with.
def verbs : List Str := ["PONG :".toList,"MODE ".toList,"WHO ".toList,"JOIN ".toList,"NICK ".toList,"USERHOST ".toList,"PRIVMSG ".toList,
  "NOTICE ".toList,"QUIT ".toList]

-- What goes back of a message to AUTH: the two words behind /QUOTE, whatever they are.
def Quotes (data : IrcData) (body : Str) : Prop :=
  ∃ slots words target, data.rest = some slots ∧ quoted slots = some (some words) ∧ body = (words.1 ++ ' ' :: words.2).take 2047 ∧
    slot data.cParams 0 = some target ∧ sameText target (some "AUTH".toList) = some true

-- What a line may say: it begins with a verb, also one of the scripts, or it quotes the message.
def Said (more : List Str) (data : IrcData) (body : Str) : Prop := (∃ verb ∈ verbs ++ more, verb <+: body) ∨ Quotes data body

-- One line, also where its end is sent twice.
def OneLine (told : Str → Prop) (text : Str) : Prop :=
  ∃ body, body ≠ [] ∧ Unbroken body ∧ told body ∧ (text = body ++ ['\n'] ∨ text = body ++ ['\n','\n'])

def Proper (told : Str → Prop) : Output → Prop
  | .sent text => OneLine told text
  | _ => True

theorem Proper.weaken {told fits : Str → Prop} {line : Output} (proper : Proper told line) (weaker : ∀ body, told body → fits body) :
    Proper fits line := by
  cases line with
  | sent text =>
      obtain ⟨body,some',plain,said,shape⟩ := proper
      exact ⟨body,some',plain,weaker body said,shape⟩
  | ran type place => trivial
  | listen => trivial

-- Over several lines that are heard: it quotes one of them.
def Answers (more : List Str) (lines : List Str) (body : Str) : Prop :=
  (∃ verb ∈ verbs ++ more, verb <+: body) ∨ ∃ line ∈ lines, ∃ netNick data, decode netNick line = some data ∧ Quotes data body

-- The texts that handlers print have no line break.
structure Tidy (net : Network) : Prop where
  nick : Unbroken net.nick
  altnick : ∀ altnick, net.altnick = some altnick → Unbroken altnick
  names : ∀ view ∈ net.chans.map Channel.view, ∀ key, view.1 = some key → Unbroken key

theorem term_lower (c : Char) : isTerm c.toLower = isTerm c := by
  unfold Char.toLower
  split
  · rename_i upper
    have above : ∀ d : Char, 'A'.val ≤ d.val → isTerm d = false := by
      intro d large
      simp only [isTerm,Bool.or_eq_false_iff,beq_eq_false_iff_ne]
      refine ⟨?_,?_⟩
      all_goals
        rintro rfl
        exact absurd large (by decide)
    have raised : 'A'.val ≤ c.val + ('a'.val - 'A'.val) := by
      obtain ⟨low,high⟩ := upper
      simp only [UInt32.le_iff_toNat_le,ge_iff_le] at low high ⊢
      rw [UInt32.toNat_add]
      have from' : 'A'.val.toNat = 65 := rfl
      have upto : 'Z'.val.toNat = 90 := rfl
      have step : ('a'.val - 'A'.val).toNat = 32 := rfl
      omega
    rw [above c upper.1,above _ raised]
  · rfl

theorem unbroken_fold (s : Str) : Unbroken (fold s) ↔ Unbroken s := by
  simp [Unbroken,fold,tolower,term_lower]

theorem printed_line {told : Str → Prop} (some' : s ≠ []) (clean : Unbroken s) (fits : told (s.take 2047)) (ending : tail = [] ∨ tail = ['\n']) :
    OneLine told ((s ++ tail).take 2047 ++ ['\n']) := by
  have filled : s.take 2047 ≠ [] := by simp [List.take_eq_nil_iff,some']
  refine ⟨s.take 2047,filled,fun c member => clean c (List.mem_of_mem_take member),fits,?_⟩
  rcases ending with rfl | rfl
  · exact .inl (by rw [List.append_nil])
  · rw [List.take_append]
    cases room : 2047 - s.length with
    | zero => exact .inl (by simp)
    | succ n => exact .inr (by simp)

theorem verb_said (known : verb ∈ verbs) (clean : Unbroken s) :
    verb ++ s ≠ [] ∧ Unbroken (verb ++ s) ∧ Said more data ((verb ++ s).take 2047) := by
  have verb' : verb ≠ [] ∧ Unbroken verb ∧ verb.length ≤ 9 := by
    revert verb
    unfold Unbroken
    decide
  refine ⟨by simp [verb'.1],?_,.inl ⟨verb,List.mem_append_left _ known,?_⟩⟩
  · intro c member
    rcases List.mem_append.mp member with first | second
    · exact verb'.2.1 c first
    · exact clean c second
  · rw [List.take_append,List.take_of_length_le (by omega)]
    exact List.prefix_append _ _

theorem plain_printed (known : verb ∈ verbs) (clean : Unbroken s) : Proper (Said more data) (tsocketPrintf (verb ++ s)) := by
  obtain ⟨some',plain,said⟩ : verb ++ s ≠ [] ∧ Unbroken (verb ++ s) ∧ Said more data ((verb ++ s).take 2047) := verb_said known clean
  have line := printed_line some' plain said (.inl rfl)
  rwa [List.append_nil] at line

theorem ended_printed (known : verb ∈ verbs) (clean : Unbroken s) : Proper (Said more data) (tsocketPrintf (verb ++ s ++ ['\n'])) := by
  obtain ⟨some',plain,said⟩ : verb ++ s ≠ [] ∧ Unbroken (verb ++ s) ∧ Said more data ((verb ++ s).take 2047) := verb_said known clean
  exact printed_line some' plain said (.inr rfl)

theorem join_proper {data : IrcData} (clean : Unbroken name) : ∀ line ∈ joinLines name, Proper (Said more data) line := by
  have letter : ∀ d : Char, isTerm d = false → Unbroken [' ',d] := by
    intro d plain c member
    rcases List.mem_cons.mp member with rfl | other
    · rfl
    · rw [List.mem_singleton.mp other]
      exact plain
  intro line member
  simp only [joinLines,List.map_cons,List.map_nil,List.mem_cons,List.not_mem_nil,or_false,List.append_assoc] at member
  rcases member with rfl | rfl | rfl | rfl | rfl
  · exact plain_printed (by simp [verbs]) clean
  · exact plain_printed (by simp [verbs]) (unbroken_append clean (letter 'b' rfl))
  · exact plain_printed (by simp [verbs]) (unbroken_append clean (letter 'e' rfl))
  · exact plain_printed (by simp [verbs]) (unbroken_append clean (letter 'I' rfl))
  · exact plain_printed (by simp [verbs]) clean

theorem tidy_name {net : Network} (tidy : Tidy net) (member : chan ∈ net.chans) (named : chan.name = some name) : Unbroken name := by
  rw [← unbroken_fold]
  exact tidy.names chan.view (List.mem_map_of_mem member) (fold name) (by simp [Channel.view,Channel.key,named])

theorem joinNames_clean {chans : List Channel} {names : Str} (each : ∀ chan ∈ chans, ∀ name, chan.name = some name → Unbroken name) (start : Unbroken joinstr)
    (made : joinNames numbytes joinstr chans = some (some names)) : Unbroken names := by
  induction chans generalizing numbytes joinstr with
  | nil =>
      cases made
      exact start
  | cons chan rest ih =>
      obtain ⟨name,named,made⟩ := Option.bind_eq_some_iff.mp made
      dsimp only at made
      split at made
      · cases made
      split at made
      · cases made
      · refine ih (fun other member => each other (by simp [member])) ?_ made
        refine unbroken_append (unbroken_append start (each chan (by simp) name named)) ?_
        intro c member
        rw [List.mem_singleton.mp member]
        rfl

theorem joins_proper {net : Network} {data : IrcData} (tidy : Tidy net) (made : joinChannels net = some joins) : ∀ line ∈ joins, Proper (Said more data) line := by
  unfold joinChannels at made
  split at made
  · cases made
    simp
  · obtain ⟨names,joined,made⟩ := Option.bind_eq_some_iff.mp made
    cases made
    intro line member
    obtain ⟨text,rfl,rfl⟩ := Option.map_eq_some_iff.mp (Option.mem_toList.mp member)
    refine ended_printed (by simp [verbs]) ?_
    have clean := joinNames_clean (fun chan member name named => tidy_name tidy member named) (by simp [Unbroken]) joined
    exact fun c member => clean c ((List.dropLast_sublist _).subset member)

-- Scripts whose lines are one line each, with a verb of their own.
structure Tame (more : List Str) (scripts : Nat → Network → IrcData → Result) : Prop where
  leaves : Leaves scripts
  tidy : ∀ id net data later out, scripts id net data = some (later,out) → Tidy net → TidyData data → Tidy later
  lines : ∀ id net data later out, scripts id net data = some (later,out) → Tidy net → TidyData data → ∀ line ∈ out, Proper (Said more data) line

-- What a message may do.
structure Speaks (more : List Str) (data : IrcData) (net : Network) (out : List Output) (later : Network) : Prop where
  triggers : SameTriggers net later
  tidy : Tidy net → Tidy later
  lines : Tidy net → ∀ line ∈ out, Proper (Said more data) line

theorem tidy_views (views : later.chans.map Channel.view = net.chans.map Channel.view) (nick : later.nick = net.nick)
    (altnick : later.altnick = net.altnick) (tidy : Tidy net) : Tidy later := by
  refine ⟨by rw [nick]; exact tidy.nick,by rw [altnick]; exact tidy.altnick,?_⟩
  rw [views]
  exact tidy.names

theorem sets_tidy {set : Channel → Channel} (sets : Sets net name set later) (nick : later.nick = net.nick) (altnick : later.altnick = net.altnick)
    (keys : later = net ∨ ∀ chan ∈ net.chans, ∀ key, (set chan).key = some key → Unbroken key) (tidy : Tidy net) : Tidy later := by
  rcases sets with ⟨rfl,-⟩ | ⟨n,front,chan,rest,-,split,-,-,rfl⟩
  · exact tidy
  · refine ⟨tidy.nick,tidy.altnick,?_⟩
    rcases keys with same | keys
    · rw [same]
      exact tidy.names
    · intro view member
      have names := tidy.names
      simp only [split,List.map_append,List.map_cons,List.mem_append,List.mem_cons] at member names
      rcases member with before | rfl | behind
      · exact names view (.inl before)
      · exact keys chan (by simp [split])
      · exact names view (.inr (.inr behind))

section
variable {more : List Str} {scripts : Nat → Network → IrcData → Result} (tame : Tame more scripts)
include tame

theorem effect_speaks (read : TidyData data) (done : effect scripts handler net data = some (later,out)) (tidy : Tidy net) :
    Tidy later ∧ ∀ line ∈ out, Proper (Said more data) line := by
  have same : handler ≠ .trollNickInUseHandler → later.nick = net.nick ∧ later.altnick = net.altnick := by
    intro other
    have kept := effect_keeps tame.leaves other done
    exact ⟨kept.nick,kept.altnick⟩
  have unseen : handler ≠ .trollNickInUseHandler → Unseen net out later → Tidy later ∧ ∀ line ∈ out, Proper (Said more data) line := by
    rintro other ⟨views,rfl⟩
    exact ⟨tidy_views views (same other).1 (same other).2 tidy,by simp⟩
  have key_clean : ∀ chan ∈ net.chans, ∀ key, chan.key = some key → Unbroken key :=
    fun chan member => tidy.names chan.view (List.mem_map_of_mem member)
  cases handler with
  | newPart => exact unseen nofun (newPart_effect done)
  | newQuit => exact unseen nofun (newQuit_effect done)
  | trollParseWho => exact unseen nofun (trollParseWho_effect done)
  | channelBanlistAdd => exact unseen nofun (channelBanlistAdd_effect done)
  | trollTrigUpdateNick => exact unseen nofun (trollTrigUpdateNick_effect done)
  | trollTrigUpdateMode => exact unseen nofun (trollTrigUpdateMode_effect done)
  | newJoin =>
      obtain ⟨views,sends⟩ := newJoin_effect done
      obtain ⟨nick,altnick⟩ := same nofun
      refine ⟨tidy_views views nick altnick tidy,?_⟩
      rcases sends with rfl | ⟨chan,member,name,named,rfl⟩
      · simp
      · exact join_proper (tidy_name tidy member named)
  | newKick =>
      obtain ⟨views,sends⟩ := newKick_effect done
      obtain ⟨nick,altnick⟩ := same nofun
      refine ⟨tidy_views views nick altnick tidy,?_⟩
      rcases sends with rfl | ⟨name,here,rfl⟩
      · simp
      · intro line member
        rw [List.mem_singleton.mp member]
        exact plain_printed (by simp [verbs]) (slot_tidy read.params here)
  | channelListPopulate =>
      obtain ⟨⟨new,views,named⟩,rfl⟩ := channelListPopulate_effect done
      obtain ⟨nick,altnick⟩ := same nofun
      refine ⟨⟨by rw [nick]; exact tidy.nick,by rw [altnick]; exact tidy.altnick,?_⟩,by simp⟩
      intro view member
      rw [views] at member
      rcases List.mem_append.mp member with old | added
      · exact tidy.names view old
      · rcases named with rfl | ⟨name,here,rfl⟩
        · cases added
        · rw [List.mem_singleton.mp added]
          rintro key ⟨⟩
          exact (unbroken_fold name).mpr (slot_tidy read.params here)
  | trollTrigUpdateTopic =>
      obtain ⟨nick,altnick⟩ := same nofun
      obtain ⟨⟨-,rfl⟩ | ⟨name,-,sets⟩,rfl⟩ := trollTrigUpdateTopic_effect done
      · exact ⟨tidy,by simp⟩
      · exact ⟨sets_tidy sets nick altnick (.inr key_clean) tidy,by simp⟩
  | channelSetTopic =>
      obtain ⟨nick,altnick⟩ := same nofun
      obtain ⟨⟨-,rfl⟩ | ⟨name,-,sets⟩,rfl⟩ := channelSetTopic_effect done
      · exact ⟨tidy,by simp⟩
      · exact ⟨sets_tidy sets nick altnick (.inr key_clean) tidy,by simp⟩
  | channelSetModes =>
      obtain ⟨nick,altnick⟩ := same nofun
      obtain ⟨⟨-,rfl⟩ | ⟨name,-,modes,sets,-⟩,rfl⟩ := channelSetModes_effect done
      · exact ⟨tidy,by simp⟩
      · exact ⟨sets_tidy sets nick altnick (.inr key_clean) tidy,by simp⟩
  | trollTrigChannelRedirect =>
      obtain ⟨nick,altnick⟩ := same nofun
      obtain ⟨⟨name,-,new,sets,given⟩,rfl⟩ := trollTrigChannelRedirect_effect done
      refine ⟨sets_tidy sets nick altnick ?_ tidy,by simp⟩
      rcases given with same | here
      · exact .inl same
      · refine .inr ?_
        intro chan _ key keyed
        obtain ⟨name,rfl,rfl⟩ := Option.map_eq_some_iff.mp keyed
        exact (unbroken_fold name).mpr (slot_tidy read.params here)
  | trollNickInUseHandler =>
      obtain ⟨altnick,known,made⟩ := Option.bind_eq_some_iff.mp done
      cases made
      refine ⟨⟨tidy.nick,tidy.altnick,tidy.names⟩,?_⟩
      intro line member
      simp only [List.mem_cons,List.not_mem_nil,or_false,or_self] at member
      rw [member]
      exact plain_printed (by simp [verbs]) (tidy.altnick altnick known)
  | trollUserHostHandler =>
      obtain ⟨joins,joined,made⟩ := Option.bind_eq_some_iff.mp done
      cases made
      refine ⟨⟨tidy.nick,tidy.altnick,tidy.names⟩,?_⟩
      intro line member
      rcases List.mem_cons.mp member with rfl | joining
      · exact plain_printed (by simp [verbs]) tidy.nick
      · exact joins_proper tidy joined line joining
  | other id => exact ⟨tame.tidy id net data later out done tidy read,tame.lines id net data later out done tidy read⟩

theorem runHandler_speaks (read : TidyData data) (done : runHandler scripts net data type place handler = some (later,out)) :
    Speaks more data net out later := by
  obtain ⟨⟨changed,sent⟩,ran,done⟩ := Option.bind_eq_some_iff.mp done
  cases done
  have counted : Tidy net → Tidy (countUse net type place) := fun tidy => ⟨tidy.nick,tidy.altnick,tidy.names⟩
  refine ⟨?_,fun tidy => (effect_speaks tame read ran (counted tidy)).1,?_⟩
  · by_cases refused : handler = .trollNickInUseHandler
    · subst refused
      obtain ⟨altnick,-,made⟩ := Option.bind_eq_some_iff.mp ran
      cases made
      exact fun other => count_keys type other place
    · exact ((count_keeps net type place).trans (effect_keeps tame.leaves refused ran)).trigs
  · intro tidy line member
    rcases List.mem_cons.mp member with rfl | later
    · trivial
    · exact (effect_speaks tame read ran (counted tidy)).2 line later

theorem speaks_rule (data : IrcData) (read : TidyData data) : Rule scripts data.command data (fun _ _ _ => True) (Speaks more data) where
  idle net := ⟨fun _ => rfl,id,by simp⟩
  andThen net out middle more' later first second := by
    refine ⟨fun type => (second.triggers type).trans (first.triggers type),fun tidy => second.tidy (first.tidy tidy),?_⟩
    intro tidy line member
    rcases List.mem_append.mp member with front | behind
    · exact first.lines tidy line front
    · exact second.lines (first.tidy tidy) line behind
  same _ _ _ does := does.triggers
  ran _ _ _ _ _ _ _ _ _ done := runHandler_speaks tame read done

theorem line_speaks (tidy : Tidy net) (clean : Unbroken buffer) (done : parseIrcLine scripts net buffer = some (later,out)) :
    Tidy later ∧ ∃ data, decode net.nick buffer = some data ∧ ∀ line ∈ out, Proper (Said more data) line := by
  obtain ⟨data,decoded,done⟩ := Option.bind_eq_some_iff.mp done
  have read := decode_tidy clean decoded
  obtain ⟨⟨middle,sent⟩,first,done⟩ := Option.bind_eq_some_iff.mp done
  obtain ⟨⟨last,others⟩,matched,done⟩ := Option.bind_eq_some_iff.mp done
  cases done
  have spoken := (speaks_rule tame data read).triggers (fun _ _ _ => trivial) matched
  have early : Tidy middle ∧ ∀ line ∈ sent, Proper (Said more data) line := by
    split at first
    · obtain ⟨word,here,first⟩ := Option.bind_eq_some_iff.mp first
      cases word with
      | none =>
          cases first
          exact ⟨tidy,by simp⟩
      | some server =>
          cases first
          refine ⟨tidy,?_⟩
          intro line member
          rw [List.mem_singleton.mp member]
          exact ended_printed (by simp [verbs]) (slot_tidy read.rest here)
    split at first
    · unfold serverHost at first
      split at first
      · split at first
        · cases first
          refine ⟨⟨tidy.nick,tidy.altnick,tidy.names⟩,?_⟩
          intro line member
          rw [List.mem_singleton.mp member]
          trivial
        · cases first
          exact ⟨tidy,by simp⟩
      · cases first
        exact ⟨tidy,by simp⟩
    · cases first
      exact ⟨tidy,by simp⟩
  refine ⟨spoken.tidy early.1,data,decoded,?_⟩
  intro line member
  rcases List.mem_append.mp member with front | behind
  · exact early.2 line front
  · exact spoken.lines early.1 line behind

theorem lines_speak (lines : List Str) (tidy : Tidy net) (clean : ∀ line ∈ lines, Unbroken line)
    (done : hearLines scripts lines net = some (later,out)) : Tidy later ∧ ∀ line ∈ out, Proper (Answers more lines) line := by
  induction lines generalizing net later out with
  | nil =>
      cases done
      exact ⟨tidy,by simp⟩
  | cons first rest ih =>
      obtain ⟨⟨middle,sent⟩,ran,done⟩ := Option.bind_eq_some_iff.mp done
      obtain ⟨⟨last,others⟩,again,done⟩ := Option.bind_eq_some_iff.mp done
      cases done
      obtain ⟨between,data,decoded,front⟩ := line_speaks tame tidy (clean first (by simp)) ran
      obtain ⟨after,behind⟩ := ih between (fun line member => clean line (by simp [member])) again
      refine ⟨after,?_⟩
      intro line member
      rcases List.mem_append.mp member with early | late
      · refine (front line early).weaken ?_
        intro body said
        exact said.imp_right (fun quotes => ⟨first,by simp,net.nick,data,decoded,quotes⟩)
      · refine (behind line late).weaken ?_
        rintro body (verb | ⟨other,inside,quotes⟩)
        · exact .inl verb
        · exact .inr ⟨other,by simp [inside],quotes⟩

end

-- The texts that go to the server, and what it reads of them.
def texts (out : List Output) : List Str :=
  out.filterMap (fun line => match line with
    | .sent text => some text
    | _ => none)

theorem texts_heard {told : Str → Prop} {sent : List Str} (lines : ∀ text ∈ sent, OneLine told text) :
    (runs isTerm sent.flatten).length = sent.length ∧ ∀ body ∈ runs isTerm sent.flatten, told body := by
  induction sent with
  | nil => simp
  | cons text rest ih =>
      obtain ⟨count,each⟩ := ih (fun other member => lines other (by simp [member]))
      obtain ⟨body,filled,plain,said,shape⟩ := lines text (by simp)
      have split : runs isTerm (text :: rest).flatten = body :: runs isTerm rest.flatten := by
        have whole : ∀ gap : Str, gap ≠ [] → (∀ c ∈ gap, isTerm c = true) → runs isTerm (body ++ gap ++ rest.flatten) = body :: runs isTerm rest.flatten := by
          intro gap some' gaps
          rw [runs_line isTerm body gap rest.flatten plain gaps some']
          simp [nonEmpty,filled]
        rw [List.flatten_cons]
        rcases shape with rfl | rfl
        · exact whole ['\n'] (by simp) (by decide)
        · exact whole ['\n','\n'] (by simp) (by decide)
      rw [split]
      refine ⟨by simp [count],?_⟩
      intro other inside
      rcases List.mem_cons.mp inside with rfl | later
      · exact said
      · exact each other later

theorem unbroken_printed (n : Int) : Unbroken (printed n) := by
  intro c member
  rcases printed_clean n c member with rfl | digit
  · rfl
  · refine plain_term ?_ ?_
    all_goals
      rintro rfl
      cases digit

theorem quoted_tidy {answer : Str × Str} (found : quoted slots = some (some answer)) (tidy : TidySlots slots) :
    Unbroken answer.1 ∧ Unbroken answer.2 := by
  induction slots with
  | nil => cases found
  | cons cell rest ih =>
      have tidy' : TidySlots rest := fun word member => tidy word (List.mem_cons_of_mem _ member)
      rcases cell with _ | _ | word
      · cases found
      · cases found
      · rw [quoted.eq_def] at found
        dsimp only at found
        split at found
        · exact ih found tidy'
        · split at found
          · cases found
          · cases found
          · cases found
            exact ⟨tidy' _ (by simp),tidy' _ (by simp)⟩
          · cases found

theorem quote_line (read : TidyData data) (said : Quotes data body) : body ≠ [] ∧ Unbroken body := by
  obtain ⟨slots,answer,target,rest,found,rfl,-⟩ := said
  obtain ⟨first,second⟩ := quoted_tidy found (read.rest slots rest)
  refine ⟨by simp [List.take_eq_nil_iff],?_⟩
  intro c member
  rcases List.mem_append.mp (List.mem_of_mem_take member) with before | behind
  · exact first c before
  · rcases List.mem_cons.mp behind with rfl | after
    · rfl
    · exact second c after

theorem privmsg_proper (nick : Unbroken who) (clean : Unbroken reply) : Proper (Said more data) (privmsg who reply) := by
  have colon : Unbroken " :".toList := by unfold Unbroken; decide
  have line : privmsg who reply = tsocketPrintf ("PRIVMSG ".toList ++ (who ++ " :".toList ++ reply)) := by simp [privmsg]
  rw [line]
  exact plain_printed (by simp [verbs]) (unbroken_append (unbroken_append nick colon) clean)

theorem ctcp_proper (nick : Unbroken who) (clean : Unbroken reply) : Proper (Said more data) (ctcpReply who reply) := by
  have colon : Unbroken (" :".toList ++ ['\x01']) := by unfold Unbroken; decide
  have quote : Unbroken ['\x01'] := by unfold Unbroken; decide
  have line : ctcpReply who reply = tsocketPrintf ("NOTICE ".toList ++ (who ++ (" :".toList ++ ['\x01']) ++ reply ++ ['\x01'])) := by
    simp [ctcpReply]
  rw [line]
  exact plain_printed (by simp [verbs]) (unbroken_append (unbroken_append (unbroken_append nick colon) clean) quote)

-- What a default handler may do: it notes the host, and answers.
def Talks (more : List Str) (net : Network) (data : IrcData) (out : List Output) (later : Network) : Prop :=
  (∃ shost, later = { net with shost := shost }) ∧ (Tidy net → TidyData data → ∀ line ∈ out, Proper (Said more data) line)

theorem talks_silent (net : Network) (data : IrcData) : Talks more net data [] net := ⟨⟨net.shost,rfl⟩,by simp⟩

theorem talks_line {line : Output} (proper : Tidy net → TidyData data → Proper (Said more data) line) : Talks more net data [line] net := by
  refine ⟨⟨net.shost,rfl⟩,?_⟩
  intro tidy read other member
  rw [List.mem_singleton.mp member]
  exact proper tidy read

theorem returnCtcp_talks (clean : Unbroken reply) (done : returnCtcp reply net data = some (later,out)) : Talks more net data out later := by
  obtain ⟨pre,sender,done⟩ := Option.bind_eq_some_iff.mp done
  cases done
  exact talks_line (fun _ read => ctcp_proper (read.sender pre sender) clean)

theorem reverseDccChat_proper (nick : Unbroken who) : ∀ line ∈ (reverseDccChat gethostbyname dcc who).2, Proper (Said more data) line := by
  unfold reverseDccChat
  split
  · intro line member
    rw [List.mem_singleton.mp member,List.append_assoc]
    exact plain_printed (by simp [verbs]) (unbroken_append nick (by unfold Unbroken; decide))
  · dsimp only
    split
    · simp
    · rename_i addr _
      intro line member
      have numbers : Unbroken (chatText (addrNumber (inetAddr (inetNtoa addr))) dcc.dccPort) := by
        have opening : Unbroken ('\x01' :: "DCC CHAT chat ".toList) := by unfold Unbroken; decide
        have ending : Unbroken ['\x01'] := by unfold Unbroken; decide
        have space : Unbroken [' '] := by unfold Unbroken; decide
        have parts : chatText (addrNumber (inetAddr (inetNtoa addr))) dcc.dccPort = '\x01' :: "DCC CHAT chat ".toList ++
            (printed (asInt (addrNumber (inetAddr (inetNtoa addr)))) ++ ([' '] ++ (printed dcc.dccPort ++ ['\x01']))) := by simp [chatText]
        rw [parts]
        exact unbroken_append opening (unbroken_append (unbroken_printed _) (unbroken_append space (unbroken_append (unbroken_printed _) ending)))
      rw [List.mem_singleton.mp member,List.append_assoc,List.append_assoc]
      exact plain_printed (by simp [verbs]) (unbroken_append nick (unbroken_append (by unfold Unbroken; decide) numbers))

theorem reverseDccChat_talks (done : handleReverseDccChat e net data = some (later,out)) : Talks more net data out later := by
  have nick : TidyData data → Unbroken (shown (data.pre.bind (·.nick))) := by
    intro read
    cases sender : data.pre with
    | none => change Unbroken "(null)".toList; unfold Unbroken; decide
    | some pre => exact read.sender pre sender
  unfold handleReverseDccChat at done
  dsimp only at done
  split at done
  · cases done
  · cases done
    refine ⟨⟨_,rfl⟩,?_⟩
    intro _ read line member
    exact reverseDccChat_proper (nick read) line member

theorem doJoinChannels_talks (done : doJoinChannels net data = some (later,out)) : Talks more net data out later := by
  obtain ⟨joins,joined,done⟩ := Option.map_eq_some_iff.mp done
  cases done
  exact ⟨⟨net.shost,rfl⟩,fun tidy _ => joins_proper tidy joined⟩

theorem newUserPass_lines (done : newUserPass g users data = some (saved,lines)) : lines = [] ∨
    ∃ pre nick pass, data.pre = some pre ∧ pre.nick = some nick ∧ slot data.rest 1 = some (some pass) ∧
      (lines = [unknownReply nick] ∨ lines = [confirmation nick pass]) := by
  obtain ⟨word,second,done⟩ := Option.bind_eq_some_iff.mp done
  cases word with
  | none =>
      cases done
      exact .inl rfl
  | some pass =>
      obtain ⟨pre,sender,done⟩ := Option.bind_eq_some_iff.mp done
      obtain ⟨nick,named,done⟩ := Option.bind_eq_some_iff.mp done
      split at done
      · cases done
        exact .inr ⟨pre,nick,pass,sender,named,second,.inl rfl⟩
      · obtain ⟨user,-,done⟩ := Option.bind_eq_some_iff.mp done
        split at done
        · cases done
          exact .inl rfl
        · cases done
          exact .inr ⟨pre,nick,pass,sender,named,second,.inr rfl⟩

theorem newUserPass_talks (done : handleNewUserPass e net data = some (later,out)) : Talks more net data out later := by
  obtain ⟨⟨saved,lines⟩,asked,done⟩ := Option.bind_eq_some_iff.mp done
  obtain ⟨records,-,done⟩ := Option.bind_eq_some_iff.mp done
  cases done
  rcases newUserPass_lines asked with rfl | ⟨pre,nick,pass,sender,named,second,shape⟩
  · exact talks_silent _ _
  have known : "PRIVMSG ".toList ∈ verbs := by simp [verbs]
  have clean : TidyData data → Unbroken nick := fun read => by simpa [shown,named] using read.sender pre sender
  rcases shape with rfl | rfl
  · have stranger : Unbroken " :I don't know you".toList := by unfold Unbroken; decide
    have line : unknownReply nick = "PRIVMSG ".toList ++ (nick ++ " :I don't know you".toList) := List.append_assoc _ _ _
    rw [List.map_singleton,line]
    refine talks_line ?_
    intro _ read
    exact plain_printed known (unbroken_append (clean read) stranger)
  · have opening : Unbroken " :Your password has been set as '".toList := by unfold Unbroken; decide
    have closing : Unbroken ['\''] := by unfold Unbroken; decide
    have grouped : ∀ a b c d e : Str, a ++ b ++ c ++ d ++ e = a ++ (b ++ (c ++ (d ++ e))) := by simp
    have line : confirmation nick pass = "PRIVMSG ".toList ++ (nick ++ (" :Your password has been set as '".toList ++ (pass ++ ['\'']))) :=
      grouped _ _ _ _ _
    rw [List.map_singleton,line]
    refine talks_line ?_
    intro _ read
    exact plain_printed known (unbroken_append (clean read) (unbroken_append opening (unbroken_append (slot_tidy read.rest second) closing)))

theorem introduceUser_talks (done : handleIntroduceUser e net data = some (later,out)) : Talks more net data out later := by
  obtain ⟨records,-,done⟩ := Option.bind_eq_some_iff.mp done
  obtain ⟨pre,sender,done⟩ := Option.bind_eq_some_iff.mp done
  obtain ⟨own,named,done⟩ := Option.bind_eq_some_iff.mp done
  have clean : TidyData data → Unbroken own := fun read => by simpa [shown,named] using read.sender pre sender
  split at done
  · cases done
    exact talks_line (fun _ read => privmsg_proper (clean read) (by unfold Unbroken; decide))
  · cases done
    refine ⟨⟨net.shost,rfl⟩,?_⟩
    intro tidy read line member
    simp only [welcome,List.mem_cons,List.not_mem_nil,or_false] at member
    rcases member with rfl | rfl
    · exact privmsg_proper (clean read)
        (unbroken_append (unbroken_append (by unfold Unbroken; decide) (clean read)) (by unfold Unbroken; decide))
    · exact privmsg_proper (clean read)
        (unbroken_append (unbroken_append (by unfold Unbroken; decide) tidy.nick) (by unfold Unbroken; decide))

theorem disconnectBot_talks (done : disconnectBot e net data = some (later,out)) : Talks more net data out later := by
  obtain ⟨saved,-,done⟩ := Option.bind_eq_some_iff.mp done
  cases done
  have version : Unbroken ":Trollbot v1.0".toList := by unfold Unbroken; decide
  exact talks_line (fun _ _ => plain_printed (show "QUIT ".toList ∈ verbs by simp [verbs]) version)

theorem trollUndernetHack_talks (done : trollUndernetHack net data = some (later,out)) : Talks more net data out later := by
  unfold trollUndernetHack at done
  split at done
  · cases done
    exact talks_silent _ _
  · obtain ⟨target,named,done⟩ := Option.bind_eq_some_iff.mp done
    obtain ⟨auth,compared,done⟩ := Option.bind_eq_some_iff.mp done
    split at done
    · rename_i same
      subst same
      obtain ⟨slots,rest,done⟩ := Option.bind_eq_some_iff.mp done
      obtain ⟨answer,found,done⟩ := Option.bind_eq_some_iff.mp done
      cases done
      refine ⟨⟨net.shost,rfl⟩,?_⟩
      intro _ read line member
      obtain ⟨answer,rfl,rfl⟩ := Option.map_eq_some_iff.mp (Option.mem_toList.mp member)
      have quotes : Quotes data ((answer.1 ++ ' ' :: answer.2).take 2047) := ⟨slots,answer,target,rest,found,rfl,named,compared⟩
      obtain ⟨filled,plain⟩ := quote_line read quotes
      exact ⟨_,filled,plain,.inr quotes,.inl rfl⟩
    · cases done
      exact talks_silent _ _

theorem default_talks {id : Nat} (e : Surroundings) (dates : ∀ net, Unbroken (e.strftime net))
    (done : defaultHandlers e scripts id net data = some (later,out)) : Talks more net data out later ∨ scripts id net data = some (later,out) := by
  unfold defaultHandlers at done
  split at done
  · exact .inl (returnCtcp_talks (by unfold Unbroken; decide) done)
  · exact .inl (reverseDccChat_talks done)
  · exact .inl (doJoinChannels_talks done)
  · exact .inl (returnCtcp_talks (unbroken_append (by unfold Unbroken; decide) (unbroken_printed _)) done)
  · exact .inl (returnCtcp_talks (unbroken_append (by unfold Unbroken; decide) (dates net)) done)
  · obtain ⟨taken,-,done⟩ := Option.map_eq_some_iff.mp done
    cases done
    exact .inl (talks_silent _ _)
  · exact .inl (newUserPass_talks done)
  · cases done
    exact .inl (talks_silent _ _)
  · exact .inl (introduceUser_talks done)
  · exact .inl (disconnectBot_talks done)
  · exact .inl (trollUndernetHack_talks done)
  · exact .inr done

-- The default handlers are tame where the scripts are.
theorem default_tame (e : Surroundings) (dates : ∀ net, Unbroken (e.strftime net)) (tame : Tame more scripts) : Tame more (defaultHandlers e scripts) := by
  refine ⟨?_,?_,?_⟩
  · intro id net data later out done
    rcases default_talks e dates done with (talks : Talks more net data out later) | script
    · obtain ⟨⟨shost,rfl⟩,-⟩ := talks
      exact ⟨rfl,rfl,rfl,fun _ => rfl⟩
    · exact tame.leaves id net data later out script
  · intro id net data later out done tidy read
    rcases default_talks e dates done with (talks : Talks more net data out later) | script
    · obtain ⟨⟨shost,rfl⟩,-⟩ := talks
      exact ⟨tidy.nick,tidy.altnick,tidy.names⟩
    · exact tame.tidy id net data later out script tidy read
  · intro id net data later out done tidy read
    rcases default_talks e dates done with talks | script
    · exact talks.2 tidy read
    · exact tame.lines id net data later out script tidy read

-- Whatever bytes come, in whatever pieces, and whatever the bot has sent of its answers: the server reads one line for each, and each
-- begins with one of the known verbs or quotes a message to AUTH.
theorem lines_outgoing (e : Surroundings) (dates : ∀ net, Unbroken (e.strftime net)) (more : List Str) (scripts : Nat → Network → IrcData → Result)
    (tame : Tame more scripts) (net : Network) (tidy : Tidy net) (chunks : List Str)
    (done : hearBytes (defaultHandlers e scripts) net chunks = some (later,out)) (begun : sent <+: texts out) :
    ∃ lines last, lineRun .irc .start chunks = some (lines,last) ∧ (runs isTerm sent.flatten).length = sent.length ∧
      ∀ body ∈ runs isTerm sent.flatten, Answers more lines body := by
  obtain ⟨⟨lines,buffer⟩,ran,done⟩ := Option.bind_eq_some_iff.mp done
  have proper := (lines_speak (default_tame e dates tame) lines tidy (lineRun_unbroken ran) done).2
  refine ⟨lines,buffer,ran,texts_heard ?_⟩
  intro text member
  obtain ⟨line,inside,shown⟩ := List.mem_filterMap.mp (begun.subset member)
  split at shown
  · cases shown
    exact proper _ inside
  · cases shown

-- A script that sets a topic, and its trigger behind the default ones, at a bot that knows nobody.
def greetScript : Nat → Network → IrcData → Result := fun _ net _ => some (net,[tsocketPrintf "TOPIC #c :hi".toList])

def defaultBot : Network :=
  { startNetwork with
    trigs := triggerListAdd Bindings.startTriggers .pub (newTrigger none .pub "!hi".toList (some "greet".toList) (some (.other 24))) }

def quietSurroundings : Surroundings :=
  ⟨⟨none,none,none,none,none,fun _ => none,fun users _ => some users⟩,none,none,0,fun _ => .empty,fun _ => 0,fun _ => [],fun _ _ => none,fun _ => some ()⟩

-- A hello, a ping behind which a line is broken, the server's notice and a line for the script.
def fourLines : List Str := [":ann!a@h PRIVMSG bot :hel".toList,"lo\r\nPING :a\rQUIT :b\r\n".toList,
  ":irc.a NOTICE AUTH :*** type /QUOTE PASS 110\r\n:ann!a@h PRIVMSG #c :!hi\r\n".toList]

def fiveAnswers : List Str := ["PRIVMSG ann :Welcome to trollbot, your username is 'ann'\n".toList,
  "PRIVMSG ann :Type '/msg bot pass <your new password>' to continue\n".toList,"PONG :a\n\n".toList,"PASS 110\n".toList,"TOPIC #c :hi\n".toList]

theorem greetScript_tame : Tame ["TOPIC ".toList] greetScript := by
  refine ⟨?_,?_,?_⟩
  all_goals
    intro id net data later out done
    cases done
  · exact .refl net
  · exact fun tidy _ => tidy
  · intro _ _ line member
    rw [List.mem_singleton.mp member]
    exact ⟨"TOPIC #c :hi".toList,by decide,by unfold Unbroken; decide,.inl ⟨"TOPIC ".toList,by simp,by decide⟩,.inl (by decide)⟩

theorem defaultBot_tidy : Tidy defaultBot := by
  refine ⟨by unfold Unbroken; decide,nofun,?_⟩
  intro view member key keyed
  obtain ⟨chan,here,rfl⟩ := List.mem_map.mp member
  rw [List.mem_singleton.mp here] at keyed
  cases keyed
  unfold Unbroken
  decide

theorem answers_outgoing : ∃ later out lines last, hearBytes (defaultHandlers quietSurroundings greetScript) defaultBot fourLines = some (later,out) ∧
    lineRun .irc .start fourLines = some (lines,last) ∧ texts out = fiveAnswers ∧ (runs isTerm fiveAnswers.flatten).length = 5 ∧
    ∀ body ∈ runs isTerm fiveAnswers.flatten, Answers ["TOPIC ".toList] lines body := by
  have sent : (hearBytes (defaultHandlers quietSurroundings greetScript) defaultBot fourLines).map (fun heard => texts heard.2) = some fiveAnswers := by
    decide +kernel
  obtain ⟨⟨later,out⟩,heard,spoken⟩ := Option.map_eq_some_iff.mp sent
  dsimp only at spoken
  obtain ⟨lines,last,ran,count,each⟩ := lines_outgoing quietSurroundings (fun _ => unbroken_nil) ["TOPIC ".toList] greetScript greetScript_tame defaultBot
    defaultBot_tidy fourLines heard (List.prefix_refl (texts out))
  rw [spoken] at count each
  exact ⟨later,out,lines,last,heard,ran,spoken,count,each⟩

end Trollbot.Irc
