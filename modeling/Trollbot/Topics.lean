import Trollbot.DispatchRule
import Trollbot.HandlerEffects
import Trollbot.Stackable
import Trollbot.Foundation.Runs

-- The topic and the modes that a channel's record keeps, against what the server has told.
namespace Trollbot.Irc
open CBuffer IrcParse Roster Runs

-- An empty text stands for a channel without a record.
def eggTopic (net : Network) (chan : Option Str) : Option (Option Str) := do
  match ← networkChannelFind net chan with
  | none => some (some [])
  | some place => (net.chans[place]?).map (·.topic)

def eggGetchanmode (net : Network) (channel : Option Str) : Option (Option Str) := do
  match ← networkChannelFind net channel with
  | none => some none
  | some place => (net.chans[place]?).map (·.chanmode)

-- What the record of a channel has, by the folded name.
def record (net : Network) (k : Str) : Option (Option Str × Option Str) :=
  (first Prod.fst (some k) (net.chans.map Channel.view)).map Prod.snd

-- The parameter of a message names the channel.
def isParam (msg : Message) (i : Nat) (k : Str) : Bool := (msg.middles[i]?).map fold == some k

-- What a message says about the channel: a TOPIC without a text says nothing to the bot.
def toldTopic (k : Str) (msg : Message) : Option (Option Str) :=
  if msg.command = "TOPIC".toList ∧ isParam msg 0 k = true ∧ said msg ≠ none then some (said msg)
  else if msg.command = "332".toList ∧ isParam msg 1 k = true then some (said msg)
  else none

def toldModes (k : Str) (msg : Message) : Option (Option Str) :=
  if msg.command = "324".toList ∧ isParam msg 1 k = true then some ((msg.middles[2]?).filter (fun modes => modes ≠ [])) else none

-- A forward neither takes the name from the channel's record nor gives it to another one; and one without
-- a new name does not find a record to take the name from.
def Forwardless (net : Network) (k : Str) (msg : Message) : Prop :=
  msg.command = "470".toList → isParam msg 2 k = false ∧ isParam msg 3 k = false ∧
    (4 ≤ msg.middles.length ∨ ∀ view ∈ net.chans.map Channel.view, view.1 ≠ (msg.middles[2]?).map fold)

-- The handlers of topics and modes are bound where add_default_triggers binds them, and nowhere else.
def Belongs (type : TrigType) (mask : Str) : Option Handler → Prop
  | some .trollTrigUpdateTopic => type = .topc
  | some .channelSetTopic => type = .raw ∧ mask = "332".toList
  | some .channelSetModes => type = .raw ∧ mask = "324".toList
  | some .trollTrigChannelRedirect => type = .raw ∧ mask = "470".toList
  | some .channelListPopulate => type = .raw ∧ mask = "353".toList
  | _ => True

structure Keeping (net : Network) : Prop where
  belongs : AllBound Belongs net
  topic : ("*".toList,some .trollTrigUpdateTopic) ∈ (net.trigs .topc).items.map triggerKey
  reply : ("332".toList,some .channelSetTopic) ∈ (net.trigs .raw).items.map triggerKey
  modes : ("324".toList,some .channelSetModes) ∈ (net.trigs .raw).items.map triggerKey

-- Handlers that are not followed here leave the triggers and the records' names, topics and modes.
structure Recordless (scripts : Nat → Network → IrcData → Result) : Prop where
  leaves : Leaves scripts
  records : ∀ id net data later out, scripts id net data = some (later,out) → later.chans.map Channel.view = net.chans.map Channel.view

-- Every record has a name to compare with.
def Named (net : Network) : Prop := ∀ view ∈ net.chans.map Channel.view, view.1 ≠ none

theorem SameTriggers.keeping (same : SameTriggers net later) (keeping : Keeping net) : Keeping later := by
  refine ⟨same.allBound keeping.belongs,?_,?_,?_⟩
  · rw [same .topc]
    exact keeping.topic
  · rw [same .raw]
    exact keeping.reply
  · rw [same .raw]
    exact keeping.modes

theorem record_first (net : Network) (k : Str) : record net k = (first Channel.key (some k) net.chans).map (fun chan => (chan.topic,chan.chanmode)) := by
  simp only [record,first,List.find?_map,Option.map_map]
  rfl

theorem record_same (same : later.chans.map Channel.view = net.chans.map Channel.view) (k : Str) : record later k = record net k := by
  rw [record,record,same]

theorem record_longer (longer : later.chans.map Channel.view = net.chans.map Channel.view ++ more) (there : record net k = some r) :
    record later k = some r := by
  rw [record,longer]
  obtain ⟨view,found,rfl⟩ := Option.map_eq_some_iff.mp there
  rw [first,List.find?_append]
  unfold first at found
  rw [found]
  rfl

theorem record_front {front rest : List Channel} {chan : Channel} (passed : ∀ other ∈ front, other.key ≠ some k) (here : chan.key = some k)
    (chans : net.chans = front ++ chan :: rest) : record net k = some (chan.topic,chan.chanmode) := by
  have missed : first Channel.key (some k) front = none := by
    simpa [first] using passed
  unfold first at missed
  rw [record_first,chans,first,List.find?_append,missed]
  simp [here]

theorem record_other {front rest : List Channel} {chan changed : Channel} (before : chan.key ≠ some k) (after : changed.key ≠ some k)
    (chans : net.chans = front ++ chan :: rest) (chans' : later.chans = front ++ changed :: rest) : record later k = record net k := by
  rw [record_first,record_first,chans,chans']
  simp [first,List.find?_append,before,after]

theorem param_read {msg : Message} (out : Readout netNick msg data) (read : slot data.cParams i = some (some n)) :
    msg.middles[i]? = some n := by
  by_cases none' : msg.middles = []
  · rw [out.noParams none'] at read
    cases read
  · obtain ⟨slots,params,words⟩ := out.params none'
    rw [params] at read
    rcases Nat.lt_or_ge i msg.middles.length with early | late
    · have here : msg.middles[i]? = some msg.middles[i] := List.getElem?_eq_getElem early
      rw [slot_word words here] at read
      cases read
      exact here
    · rcases Nat.eq_or_lt_of_le late with rfl | behind
      · rw [slot_end words] at read
        cases read
      · simp only [slot,Option.bind_eq_bind,Option.bind_some,Option.bind_eq_some_iff] at read
        obtain ⟨cell,there,rfl⟩ := read
        exact absurd there (out.ended slots params i behind n)

theorem param_there {msg : Message} (out : Readout netNick msg data) (inside : i < msg.middles.length) :
    slot data.cParams i = some (some msg.middles[i]) := by
  obtain ⟨slots,params,words⟩ := out.params (List.ne_nil_of_length_pos (by omega))
  rw [params]
  exact slot_word words (List.getElem?_eq_getElem inside)

theorem isParam_of {msg : Message} (here : msg.middles[i]? = some n) (k : Str) : isParam msg i k = true ↔ fold n = k := by
  simp [isParam,here]

-- What a message may do to the record of a channel: it keeps the topic or has the one that is told, and so for the modes.
structure Heeds (k : Str) (msg : Message) (net : Network) (out : List Output) (later : Network) : Prop where
  triggers : SameTriggers net later
  away : Forwardless net k msg → Forwardless later k msg
  named : Forwardless net k msg → Named net → Named later
  kept : Forwardless net k msg → ∀ t m, record net k = some (t,m) → ∃ t' m', record later k = some (t',m') ∧
    (t' = t ∨ toldTopic k msg = some t') ∧ (m' = m ∨ toldModes k msg = some m')

theorem heeds_views (triggers : SameTriggers net later) (same : later.chans.map Channel.view = net.chans.map Channel.view) :
    Heeds k msg net out later := by
  refine ⟨triggers,?_,?_,fun _ t m there => ⟨t,m,by rw [record_same same,there],.inl rfl,.inl rfl⟩⟩
  · rw [Forwardless,Forwardless,same]
    exact id
  · rw [Named,Named,same]
    exact fun _ => id

theorem Heeds.next (first : Heeds k msg net out middle) (second : Heeds k msg middle more later) :
    Heeds k msg net (out ++ more) later := by
  refine ⟨fun type => (second.triggers type).trans (first.triggers type),fun away => second.away (first.away away),
    fun away named => second.named (first.away away) (first.named away named),?_⟩
  intro away t m there
  obtain ⟨t',m',here,topic',modes'⟩ := first.kept away t m there
  obtain ⟨t'',m'',last,topic'',modes''⟩ := second.kept (first.away away) t' m' here
  refine ⟨t'',m'',last,?_,?_⟩
  · rcases topic'' with rfl | told
    · exact topic'
    · exact .inr told
  · rcases modes'' with rfl | told
    · exact modes'
    · exact .inr told

theorem Heeds.stays (heeds : Heeds k msg net out later) (there : Forwardless net k msg ∧ ∃ r, record net k = some r) :
    Forwardless later k msg ∧ ∃ r, record later k = some r := by
  obtain ⟨away,⟨t,m⟩,there⟩ := there
  obtain ⟨t',m',here,-,-⟩ := heeds.kept away t m there
  exact ⟨heeds.away away,(t',m'),here⟩

theorem Heeds.keeps_topic (heeds : Heeds k msg net out later) (told : toldTopic k msg = some new)
    (there : Forwardless net k msg ∧ ∃ m, record net k = some (new,m)) : Forwardless later k msg ∧ ∃ m, record later k = some (new,m) := by
  obtain ⟨away,m,there⟩ := there
  obtain ⟨t',m',here,topic',-⟩ := heeds.kept away new m there
  rcases topic' with rfl | again
  · exact ⟨heeds.away away,m',here⟩
  · obtain rfl := Option.some.inj (told.symm.trans again)
    exact ⟨heeds.away away,m',here⟩

theorem Heeds.keeps_modes (heeds : Heeds k msg net out later) (told : toldModes k msg = some new)
    (there : Forwardless net k msg ∧ ∃ t, record net k = some (t,new)) : Forwardless later k msg ∧ ∃ t, record later k = some (t,new) := by
  obtain ⟨away,t,there⟩ := there
  obtain ⟨t',m',here,-,mode⟩ := heeds.kept away t new there
  rcases mode with rfl | again
  · exact ⟨heeds.away away,t',here⟩
  · obtain rfl := Option.some.inj (told.symm.trans again)
    exact ⟨heeds.away away,t',here⟩

theorem record_some (there : record net k = some r) : ∃ chan ∈ net.chans, chan.key = some k := by
  rw [record_first] at there
  obtain ⟨chan,found,-⟩ := Option.map_eq_some_iff.mp there
  exact ⟨chan,List.mem_of_find?_eq_some found,by simpa using List.find?_some found⟩

theorem sets_named {set : Channel → Channel} (sets : Sets net name set later) (fine : later = net ∨ ∀ chan : Channel, chan.key ≠ none → (set chan).key ≠ none)
    (named : Named net) : Named later := by
  rcases fine with rfl | fine
  · exact named
  · rcases sets with ⟨rfl,-,-⟩ | ⟨n,front,chan,rest,rfl,split,passed,key,rfl⟩
    · exact named
    · unfold Named at named ⊢
      rw [split] at named
      simp only [List.forall_mem_map,List.forall_mem_append,List.forall_mem_cons] at named ⊢
      exact ⟨named.1,fine chan named.2.1,named.2.2⟩

-- The record that is found is the channel's or another one's.
theorem sets_record {set : Channel → Channel} (sets : Sets net name set later) (keys : ∀ chan : Channel, (set chan).key = chan.key)
    (there : record net k = some (t,m)) : ∃ n, name = some n ∧
      ((fold n = k ∧ ∃ chan : Channel, chan.topic = t ∧ chan.chanmode = m ∧ record later k = some ((set chan).topic,(set chan).chanmode)) ∨
        (fold n ≠ k ∧ record later k = some (t,m))) := by
  rcases sets with ⟨rfl,missed,none'⟩ | ⟨n,front,chan,rest,rfl,split,passed,key,rfl⟩
  · obtain ⟨chan,member,key⟩ := record_some there
    cases name with
    | none =>
        rw [none' rfl] at member
        cases member
    | some n =>
        refine ⟨n,rfl,.inr ⟨?_,there⟩⟩
        rintro rfl
        exact missed n rfl chan member key
  · refine ⟨n,rfl,?_⟩
    by_cases same : fold n = k
    · subst same
      rw [record_front passed key split,Option.some.injEq,Prod.mk.injEq] at there
      exact .inl ⟨rfl,chan,there.1,there.2,record_front passed ((keys chan).trans key) rfl⟩
    · have differ : chan.key ≠ some k := by
        rw [key]
        exact fun equal => same (Option.some.inj equal)
      exact .inr ⟨same,by rw [record_other differ (by rwa [keys chan]) split rfl,there]⟩

-- A record that changes its name, neither from nor to the channel's.
theorem forward_record (sets : Sets net name (fun chan => { chan with name := new }) later) (away : ∀ n, name = some n → fold n ≠ k)
    (free : later = net ∨ new.map fold ≠ some k) : record later k = record net k := by
  rcases sets with ⟨rfl,-,-⟩ | ⟨n,front,chan,rest,rfl,split,passed,key,rfl⟩
  · rfl
  · rcases free with same | free
    · rw [same]
    · have moved : ({ chan with name := new } : Channel).key ≠ some k := free
      refine record_other ?_ moved split rfl
      rw [key]
      exact fun equal => away n rfl (Option.some.inj equal)

section
variable {msg : Message} (out : Readout netNick msg data)
include out

theorem restStr_said : data.restStr = said msg := by
  cases spoken : said msg with
  | none => exact (out.silent (said_none.mp spoken)).2
  | some text =>
      obtain ⟨trailing,some'⟩ := said_some.mp spoken
      exact (out.spoken text trailing some').1

theorem reply_record (reply : msg.command = "332".toList) (done : channelSetTopic net data = some (later,sent))
    (there : record net k = some (t,m)) : record later k = some ((toldTopic k msg).getD t,m) := by
  have kind : ¬msg.command = "TOPIC".toList := by rw [reply]; decide
  rcases (channelSetTopic_effect done).1 with ⟨none',-⟩ | ⟨name,read,sets⟩
  · obtain ⟨chan,member,-⟩ := record_some there
    rw [none'] at member
    cases member
  · obtain ⟨n,rfl,found⟩ := sets_record sets (fun _ => rfl) there
    have given := isParam_of (param_read out read) k
    rcases found with ⟨same,chan,rfl,rfl,here⟩ | ⟨differ,here⟩
    · rw [here,toldTopic,if_neg (fun is => kind is.1),if_pos ⟨reply,given.mpr same⟩,restStr_said out]
      rfl
    · rw [here,toldTopic,if_neg (fun is => kind is.1),if_neg (fun is => differ (given.mp is.2))]
      rfl

theorem change_record (change : msg.command = "TOPIC".toList) (spoken : said msg ≠ none) (done : trollTrigUpdateTopic net data = some (later,sent))
    (there : record net k = some (t,m)) : record later k = some ((toldTopic k msg).getD t,m) := by
  have kind : ¬msg.command = "332".toList := by rw [change]; decide
  rcases (trollTrigUpdateTopic_effect done).1 with ⟨none',-⟩ | ⟨name,read,sets⟩
  · obtain ⟨chan,member,-⟩ := record_some there
    rw [none'] at member
    cases member
  · obtain ⟨n,rfl,found⟩ := sets_record sets (fun _ => rfl) there
    have given := isParam_of (param_read out read) k
    rcases found with ⟨same,chan,rfl,rfl,here⟩ | ⟨differ,here⟩
    · rw [here,toldTopic,if_pos ⟨change,given.mpr same,spoken⟩,restStr_said out]
      rfl
    · rw [here,toldTopic,if_neg (fun is => differ (given.mp is.2.1)),if_neg (fun is => kind is.1)]
      rfl

theorem modes_record (reply : msg.command = "324".toList) (done : channelSetModes net data = some (later,sent))
    (there : record net k = some (t,m)) : record later k = some (t,(toldModes k msg).getD m) := by
  rcases (channelSetModes_effect done).1 with ⟨none',-⟩ | ⟨name,read,modes,sets,given⟩
  · obtain ⟨chan,member,-⟩ := record_some there
    rw [none'] at member
    cases member
  · obtain ⟨n,rfl,found⟩ := sets_record sets (fun _ => rfl) there
    have first := param_read out read
    have told := isParam_of first k
    rcases found with ⟨same,chan,rfl,rfl,here⟩ | ⟨differ,here⟩
    · rw [toldModes,if_pos ⟨reply,told.mpr same⟩]
      have inside := (List.getElem?_eq_some_iff.mp first).1
      rcases given with missed | given
      · obtain ⟨other,member,key⟩ := record_some there
        exact absurd (key.trans (congrArg some same.symm)) (missed n rfl other member)
      · rw [here,param_read out given]
        by_cases empty : modes = []
        · simp [empty,Option.filter]
        · simp [empty,Option.filter]
    · rw [here,toldModes,if_neg (fun is => differ (told.mp is.2))]
      rfl

theorem silent_topic (quiet : said msg = none) (trig : Trigger Handler) : topicMask data trig ≠ some true := by
  obtain ⟨-,noText⟩ := out.silent (said_none.mp quiet)
  unfold topicMask
  rw [noText]
  cases data.cParams with
  | none => simp
  | some slots =>
      cases slot (some slots) 0 <;> simp

theorem spoken_topic (spoken : said msg ≠ none) (here : isParam msg 0 k = true) {trig : Trigger Handler} (all : trig.mask = "*".toList) :
    topicMask data trig = some true := by
  obtain ⟨text,some'⟩ := Option.ne_none_iff_exists'.mp spoken
  have text' := restStr_said out
  have present : ∃ n, msg.middles[0]? = some n := by
    cases first : msg.middles[0]? with
    | none => simp [isParam,first] at here
    | some n => exact ⟨n,rfl⟩
  obtain ⟨n,first⟩ := present
  have some'' : msg.middles ≠ [] := by
    rintro none'
    simp [none'] at first
  obtain ⟨slots,params,words⟩ := out.params some''
  have read := slot_word words first
  unfold topicMask
  rw [text',some',params]
  simp only [read,Option.bind_eq_bind,Option.bind_some,all]
  rw [wildMatch_star]

end

theorem match_reply {scripts : Nat → Network → IrcData → Result} (reply : data.command = "332".toList ∨ data.command = "324".toList) :
    triggerMatch scripts net data = eachRaw scripts data 0 (net.trigs .raw).items net := by
  unfold triggerMatch
  rcases reply with is | is
  all_goals
    rw [is]
    rfl

theorem gets_topic (gets : GetsTo command .topc mask) : command = "TOPIC".toList := by
  simpa [GetsTo] using gets

theorem gets_raw (gets : GetsTo command .raw mask) : command = mask := by
  have same : mask = command := by simpa [GetsTo] using gets
  exact same.symm

theorem getD_told (told : Option α) (old : α) : told.getD old = old ∨ told = some (told.getD old) := by
  cases told <;> simp

theorem other_forwardless {msg : Message} (other : msg.command ≠ "470".toList) : Forwardless net k msg := fun is => absurd is other

-- A forward that is away from the channel renames another one's record, if any.
theorem forward_moves {msg : Message} (out : Readout netNick msg data) (forward : msg.command = "470".toList)
    (done : trollTrigChannelRedirect net data = some (later,sent)) (away : Forwardless net k msg) : later = net ∨
    4 ≤ msg.middles.length ∧ ∃ name w, Sets net name (fun chan => { chan with name := some w }) later ∧
      (∀ n, name = some n → fold n ≠ k) ∧ fold w ≠ k := by
  obtain ⟨before,after,rest⟩ := away forward
  obtain ⟨name,read,new,sets,given⟩ := (trollTrigChannelRedirect_effect done).1
  rcases given with same | given
  · exact .inl same
  · have from' : ∀ n, name = some n → fold n ≠ k := by
      rintro n rfl equal
      rw [(isParam_of (param_read out read) k).mpr equal] at before
      cases before
    rcases rest with long | missing
    · have word := Option.some.inj (given.symm.trans (param_there out long))
      subst word
      refine .inr ⟨long,name,msg.middles[3],sets,from',?_⟩
      intro equal
      rw [(isParam_of (List.getElem?_eq_getElem long) k).mpr equal] at after
      cases after
    · refine .inl ?_
      rcases sets with ⟨same,-,-⟩ | ⟨n,front,chan,rest,rfl,split,passed,key,-⟩
      · exact same
      · have here : chan ∈ net.chans := by simp [split]
        have named := missing chan.view (List.mem_map_of_mem here)
        rw [param_read out read] at named
        exact absurd key named

section
variable {scripts : Nat → Network → IrcData → Result} (recordless : Recordless scripts)
include recordless

theorem effect_triggers (done : effect scripts handler net data = some (later,out)) : SameTriggers net later := by
  by_cases refused : handler = .trollNickInUseHandler
  · subst refused
    obtain ⟨altnick,-,made⟩ := Option.bind_eq_some_iff.mp done
    cases made
    exact fun _ => rfl
  · exact (effect_keeps recordless.leaves refused done).trigs

variable {msg : Message} (out : Readout netNick msg data) (spoken : msg.command = "TOPIC".toList → said msg ≠ none)
include out spoken

theorem effect_heeds (known : Belongs type mask (some handler)) (gets : GetsTo data.command type mask)
    (done : effect scripts handler net data = some (later,sent)) : Heeds k msg net sent later := by
  have triggers := effect_triggers recordless done
  have unseen : later.chans.map Channel.view = net.chans.map Channel.view → Heeds k msg net sent later :=
    heeds_views triggers
  cases handler with
  | newJoin => exact unseen (newJoin_effect done).1
  | newPart => exact unseen (newPart_effect done).1
  | newQuit => exact unseen (newQuit_effect done).1
  | newKick => exact unseen (newKick_effect done).1
  | trollParseWho => exact unseen (trollParseWho_effect done).1
  | channelBanlistAdd => exact unseen (channelBanlistAdd_effect done).1
  | trollTrigUpdateNick => exact unseen (trollTrigUpdateNick_effect done).1
  | trollTrigUpdateMode => exact unseen (trollTrigUpdateMode_effect done).1
  | trollNickInUseHandler =>
      obtain ⟨altnick,-,made⟩ := Option.bind_eq_some_iff.mp done
      cases made
      exact unseen rfl
  | trollUserHostHandler =>
      obtain ⟨joins,-,made⟩ := Option.bind_eq_some_iff.mp done
      cases made
      exact unseen rfl
  | other id => exact unseen (recordless.records id net data later sent done)
  | channelListPopulate =>
      have reply : msg.command = "353".toList := by
        obtain ⟨rfl,rfl⟩ := known
        exact out.command.symm.trans (gets_raw gets)
      obtain ⟨more,longer,new⟩ := (channelListPopulate_effect done).1
      refine ⟨triggers,fun _ => other_forwardless (by rw [reply]; decide),?_,
        fun _ t m there => ⟨t,m,record_longer longer there,.inl rfl,.inl rfl⟩⟩
      intro _ named view member
      rw [longer] at member
      rcases List.mem_append.mp member with front | behind
      · exact named view front
      · rcases new with rfl | ⟨name,-,rfl⟩
        · cases behind
        · rw [List.mem_singleton.mp behind]
          simp [Channel.view,Channel.key,newChannel]
  | trollTrigUpdateTopic =>
      have change : msg.command = "TOPIC".toList := by
        subst known
        exact out.command.symm.trans (gets_topic gets)
      refine ⟨triggers,fun _ => other_forwardless (by rw [change]; decide),fun _ => ?_,?_⟩
      · rcases (trollTrigUpdateTopic_effect done).1 with ⟨-,rfl⟩ | ⟨name,-,sets⟩
        · exact id
        · exact sets_named sets (.inr fun chan key => key)
      · intro _ t m there
        exact ⟨_,m,change_record out change (spoken change) done there,getD_told _ t,.inl rfl⟩
  | channelSetTopic =>
      have reply : msg.command = "332".toList := by
        obtain ⟨rfl,rfl⟩ := known
        exact out.command.symm.trans (gets_raw gets)
      refine ⟨triggers,fun _ => other_forwardless (by rw [reply]; decide),fun _ => ?_,?_⟩
      · rcases (channelSetTopic_effect done).1 with ⟨-,rfl⟩ | ⟨name,-,sets⟩
        · exact id
        · exact sets_named sets (.inr fun chan key => key)
      · intro _ t m there
        exact ⟨_,m,reply_record out reply done there,getD_told _ t,.inl rfl⟩
  | channelSetModes =>
      have reply : msg.command = "324".toList := by
        obtain ⟨rfl,rfl⟩ := known
        exact out.command.symm.trans (gets_raw gets)
      refine ⟨triggers,fun _ => other_forwardless (by rw [reply]; decide),fun _ => ?_,?_⟩
      · rcases (channelSetModes_effect done).1 with ⟨-,rfl⟩ | ⟨name,-,modes,sets,-⟩
        · exact id
        · exact sets_named sets (.inr fun chan key => key)
      · intro _ t m there
        exact ⟨t,_,modes_record out reply done there,.inl rfl,getD_told _ m⟩
  | trollTrigChannelRedirect =>
      have forward : msg.command = "470".toList := by
        obtain ⟨rfl,rfl⟩ := known
        exact out.command.symm.trans (gets_raw gets)
      have moves := fun away : Forwardless net k msg => forward_moves out forward done away
      refine ⟨triggers,?_,?_,?_⟩
      · intro away _
        obtain ⟨before,after,-⟩ := away forward
        rcases moves away with rfl | ⟨long,-⟩
        · exact away forward
        · exact ⟨before,after,.inl long⟩
      · intro away named
        rcases moves away with rfl | ⟨-,name,w,sets,-⟩
        · exact named
        · exact sets_named sets (.inr fun chan _ => by simp [Channel.key]) named
      · intro away t m there
        refine ⟨t,m,?_,.inl rfl,.inl rfl⟩
        rcases moves away with rfl | ⟨-,name,w,sets,from',to'⟩
        · exact there
        · rw [forward_record sets from' (.inr (fun equal => to' (Option.some.inj equal))),there]

theorem heeds_rule (k : Str) : Rule scripts data.command data Belongs (Heeds k msg) where
  idle net := heeds_views (fun _ => rfl) rfl
  andThen _ _ _ _ _ first second := first.next second
  same _ _ _ does := does.triggers
  ran := by
    intro net type place mask handler later sent known gets done
    obtain ⟨⟨changed,more⟩,ran,done⟩ := Option.bind_eq_some_iff.mp done
    cases done
    have counted : Heeds k msg net [.ran type place] (countUse net type place) :=
      heeds_views (fun other => count_keys type other place) rfl
    exact counted.next (effect_heeds recordless out spoken known gets ran)

theorem topic_brought (keeping : Keeping net) (told : toldTopic k msg = some topic) (there : ∃ r, record net k = some r)
    (done : triggerMatch scripts net data = some (later,sent)) : ∃ m, record later k = some (topic,m) := by
  have rule := heeds_rule recordless out spoken k
  by_cases change : msg.command = "TOPIC".toList
  · have away : ∀ net, Forwardless net k msg := fun net => other_forwardless (by rw [change]; decide)
    have here : isParam msg 0 k = true := by
      by_contra other
      have kind : ¬msg.command = "332".toList := by rw [change]; decide
      simp [toldTopic,change,other] at told
    rw [match_topic (out.command.trans change)] at done
    obtain ⟨trig,member,key⟩ := List.mem_map.mp keeping.topic
    obtain ⟨mask,handles⟩ := Prod.mk.inj key
    refine (rule.each_brings (keeping.belongs.each .topc) (fun _ => ?_) (fun _ _ _ => Heeds.stays) (fun _ _ _ heeds => heeds.keeps_topic told) ?_
      ⟨trig,member,handles,spoken_topic out (spoken change) here mask⟩ ⟨away net,there⟩ done).2
    · exact .inr (.inr (.inr (.inl ⟨out.command.trans change,rfl⟩)))
    · rintro net place later sent ⟨-,⟨t,m⟩,there⟩ ran
      obtain ⟨⟨changed,more⟩,moved,done⟩ := Option.bind_eq_some_iff.mp ran
      cases done
      exact ⟨away _,m,by rw [change_record out change (spoken change) moved there,told]; rfl⟩
  · have reply : msg.command = "332".toList := by
      by_contra other
      rw [toldTopic,if_neg (fun is => change is.1),if_neg (fun is => other is.1)] at told
      cases told
    have away : ∀ net, Forwardless net k msg := fun net => other_forwardless (by rw [reply]; decide)
    rw [match_reply (.inl (out.command.trans reply))] at done
    refine (rule.raw_brings (keeping.belongs.each .raw) (fun _ _ _ => Heeds.stays) (fun _ _ _ heeds => heeds.keeps_topic told) ?_
      (out.command.trans reply ▸ keeping.reply) ⟨away net,there⟩ done).2
    rintro net place later sent ⟨-,⟨t,m⟩,there⟩ ran
    obtain ⟨⟨changed,more⟩,moved,done⟩ := Option.bind_eq_some_iff.mp ran
    cases done
    exact ⟨away _,m,by rw [reply_record out reply moved there,told]; rfl⟩

theorem modes_brought (keeping : Keeping net) (told : toldModes k msg = some modes) (there : ∃ r, record net k = some r)
    (done : triggerMatch scripts net data = some (later,sent)) : ∃ t, record later k = some (t,modes) := by
  have rule := heeds_rule recordless out spoken k
  have reply : msg.command = "324".toList := by
    by_contra other
    rw [toldModes,if_neg (fun is => other is.1)] at told
    cases told
  have away : ∀ net, Forwardless net k msg := fun net => other_forwardless (by rw [reply]; decide)
  rw [match_reply (.inr (out.command.trans reply))] at done
  refine (rule.raw_brings (keeping.belongs.each .raw) (fun _ _ _ => Heeds.stays) (fun _ _ _ heeds => heeds.keeps_modes told) ?_
    (out.command.trans reply ▸ keeping.modes) ⟨away net,there⟩ done).2
  rintro net place later sent ⟨-,⟨t,m⟩,there⟩ ran
  obtain ⟨⟨changed,more⟩,moved,done⟩ := Option.bind_eq_some_iff.mp ran
  cases done
  exact ⟨away _,t,by rw [modes_record out reply moved there,told]; rfl⟩

theorem matched_record (keeping : Keeping net) (away : Forwardless net k msg) (there : record net k = some (t,m))
    (done : triggerMatch scripts net data = some (later,sent)) :
    record later k = some ((toldTopic k msg).getD t,(toldModes k msg).getD m) := by
  obtain ⟨t',m',here,topic,modes⟩ := ((heeds_rule recordless out spoken k).triggers keeping.belongs done).kept away t m there
  have topic' : t' = (toldTopic k msg).getD t := by
    cases told : toldTopic k msg with
    | none => simpa [told] using topic
    | some text =>
        obtain ⟨m'',brought⟩ := topic_brought recordless out spoken keeping told ⟨(t,m),there⟩ done
        rw [here] at brought
        cases brought
        rfl
  have modes' : m' = (toldModes k msg).getD m := by
    cases told : toldModes k msg with
    | none => simpa [told] using modes
    | some text =>
        obtain ⟨t'',brought⟩ := modes_brought recordless out spoken keeping told ⟨(t,m),there⟩ done
        rw [here] at brought
        cases brought
        rfl
  rw [here,topic',modes']

end

theorem serverHost_records (net : Network) (data : IrcData) :
    (serverHost net data).1.chans = net.chans ∧ (serverHost net data).1.trigs = net.trigs := by
  unfold serverHost
  split
  · split <;> exact ⟨rfl,rfl⟩
  · exact ⟨rfl,rfl⟩

-- Before the triggers the records and the triggers are left alone.
theorem ahead_keeps {net middle : Network} (done : (if data.command = "PING".toList then pong net data
    else if data.command = "302".toList then some (serverHost net data) else some (net,[])) = some (middle,sent)) :
    middle.chans = net.chans ∧ middle.trigs = net.trigs := by
  split at done
  · obtain ⟨word,-,done⟩ := Option.bind_eq_some_iff.mp done
    cases word <;> cases done <;> exact ⟨rfl,rfl⟩
  split at done
  · have same := serverHost_records net data
    rwa [Option.some.inj done] at same
  · cases done
    exact ⟨rfl,rfl⟩

-- What one message leaves for the next one.
structure Tells (k : Str) (msg : Message) (net later : Network) : Prop where
  triggers : SameTriggers net later
  named : Named net → Named later
  record : ∀ t m, Irc.record net k = some (t,m) → Irc.record later k = some ((toldTopic k msg).getD t,(toldModes k msg).getD m)

theorem message_tells {scripts : Nat → Network → IrcData → Result} (recordless : Recordless scripts) (keeping : Keeping net) (well : msg.Readable)
    (away : Forwardless net k msg) (done : parseIrcLine scripts net msg.render = some (later,sent)) : Tells k msg net later := by
  obtain ⟨data,read,done⟩ := Option.bind_eq_some_iff.mp done
  obtain ⟨data',read',out⟩ := decode_readout net.nick msg well
  obtain rfl : data = data' := Option.some.inj (read.symm.trans read')
  obtain ⟨⟨middle,first⟩,ahead,done⟩ := Option.bind_eq_some_iff.mp done
  obtain ⟨⟨last,more⟩,matched,done⟩ := Option.bind_eq_some_iff.mp done
  cases done
  obtain ⟨chans,trigs⟩ := ahead_keeps ahead
  have same : SameTriggers net middle := fun type => by rw [trigs]
  have views : middle.chans.map Channel.view = net.chans.map Channel.view := by rw [chans]
  by_cases quiet : msg.command = "TOPIC".toList ∧ said msg = none
  · have matched' := (match_topic (out.command.trans quiet.1)).symm.trans matched
    obtain ⟨rfl,-⟩ := each_idle (fun trig _ => silent_topic out quiet.2 trig) matched'
    refine ⟨same,?_,?_⟩
    · rw [Named,Named,views]
      exact id
    · intro t m there
      have topic : toldTopic k msg = none := by simp [toldTopic,quiet.1,quiet.2]
      have modes : toldModes k msg = none := by simp [toldModes,quiet.1]
      rw [record_same views,there,topic,modes]
      rfl
  · have spoken : msg.command = "TOPIC".toList → said msg ≠ none := fun change none' => quiet ⟨change,none'⟩
    have keeping' := same.keeping keeping
    have away' : Forwardless middle k msg := by rwa [Forwardless,views]
    have heeds := (heeds_rule recordless out spoken k).triggers keeping'.belongs matched
    refine ⟨fun type => (heeds.triggers type).trans (same type),?_,?_⟩
    · intro named
      refine heeds.named away' ?_
      rwa [Named,views]
    · intro t m there
      exact matched_record recordless out spoken keeping' away' (by rw [record_same views,there]) matched

def hears (scripts : Nat → Network → IrcData → Result) (net : Network) (msg : Message) : Option Network :=
  (parseIrcLine scripts net msg.render).map Prod.fst

-- The last text that the messages tell.
def lastTold (told : Message → Option (Option Str)) (start : Option Str) (msgs : List Message) : Option Str :=
  msgs.foldl (fun now msg => (told msg).getD now) start

theorem messages_tell {scripts : Nat → Network → IrcData → Result} (recordless : Recordless scripts) (keeping : Keeping net) (named : Named net)
    {msgs : List Message} (well : ∀ msg ∈ msgs, msg.Readable) (away : Meets (hears scripts) (fun net msg => Forwardless net k msg) net msgs)
    (done : hearLines scripts (msgs.map Message.render) net = some (later,sent)) (there : record net k = some (t,m)) :
    Named later ∧ record later k = some (lastTold (toldTopic k) t msgs,lastTold (toldModes k) m msgs) := by
  induction msgs generalizing net t m later sent with
  | nil =>
      cases done
      exact ⟨named,there⟩
  | cons msg rest ih =>
      obtain ⟨⟨middle,first⟩,heard,done⟩ := Option.bind_eq_some_iff.mp done
      obtain ⟨⟨last,more⟩,others,done⟩ := Option.bind_eq_some_iff.mp done
      cases done
      have tells := message_tells recordless keeping (well msg (by simp)) away.1 heard
      exact ih (tells.triggers.keeping keeping) (tells.named named) (fun other member => well other (by simp [member]))
        (away.2 middle (by simp [hears,heard])) others (tells.record t m there)

theorem search_named (named : Named net) (name : Str) :
    networkChannelFind net (some name) = some none ∧ record net (fold name) = none ∨
      ∃ (place : Nat) (chan : Channel), networkChannelFind net (some name) = some (some place) ∧ net.chans[place]? = some chan ∧
        record net (fold name) = some (chan.topic,chan.chanmode) := by
  have total : ∀ chan ∈ net.chans, sameText chan.name (some name) = some (decide (chan.key = some (fold name))) := by
    intro chan member
    have key : chan.key ≠ none := named chan.view (List.mem_map_of_mem member)
    exact sameText_total (by simpa [Channel.key] using key) name
  have found := findPlace_total total
  cases searched : net.chans.findIdx? (fun chan => chan.key = some (fold name)) with
  | none =>
      refine .inl ⟨by rw [networkChannelFind,found,searched],?_⟩
      rw [record_first,first,List.find?_eq_none.mpr]
      · rfl
      · simpa using searched
  | some place =>
      obtain ⟨inside,hit,passed⟩ := List.findIdx?_eq_some_iff_getElem.mp searched
      refine .inr ⟨place,net.chans[place],by rw [networkChannelFind,found,searched],List.getElem?_eq_getElem inside,?_⟩
      have split : net.chans = net.chans.take place ++ net.chans[place] :: net.chans.drop (place + 1) := by simp
      refine record_front ?_ (by simpa using hit) split
      intro other member
      obtain ⟨i,early,rfl⟩ := List.mem_take_iff_getElem.mp member
      simpa using passed i (by omega)

-- After any messages of the server, however they come, a channel's topic and modes are those that the server told last.
theorem topics_followed (scripts : Nat → Network → IrcData → Result) (recordless : Recordless scripts) (net : Network) (keeping : Keeping net)
    (named : Named net) (name : Str) (on : ∃ chan ∈ net.chans, chan.key = some (fold name)) (msgs : List Message)
    (well : ∀ msg ∈ msgs, msg.Readable) (away : Meets (hears scripts) (fun net msg => Forwardless net (fold name) msg) net msgs)
    (topic : eggTopic net (some name) = some t) (modes : eggGetchanmode net (some name) = some m)
    (done : hearLines scripts (msgs.map Message.render) net = some (later,sent)) :
    eggTopic later (some name) = some (lastTold (toldTopic (fold name)) t msgs) ∧
      eggGetchanmode later (some name) = some (lastTold (toldModes (fold name)) m msgs) := by
  have there : record net (fold name) = some (t,m) := by
    rcases search_named named name with ⟨-,none'⟩ | ⟨place,chan,found,at',here⟩
    · obtain ⟨chan,member,key⟩ := on
      rw [record_first,Option.map_eq_none_iff,first,List.find?_eq_none] at none'
      exact absurd (by simpa using key) (none' chan member)
    · simp [eggTopic,found,at'] at topic
      simp [eggGetchanmode,found,at'] at modes
      rw [here,topic,modes]
  obtain ⟨named',record'⟩ := messages_tell recordless keeping named well away done there
  rcases search_named named' name with ⟨-,none'⟩ | ⟨place,chan,found,at',here⟩
  · rw [none'] at record'
    cases record'
  · rw [here,Option.some.injEq,Prod.mk.injEq] at record'
    simp [eggTopic,eggGetchanmode,found,at',record']

-- The bot is forwarded from a channel to another one, the server tells the topic and the modes, and a user changes
-- the topic; a change without a text is not heard.
def topicTalk : List Message :=
  [⟨some (.server "irc.a".toList),"470".toList,["bot".toList,"#a".toList,"##b".toList],some "Forwarding".toList⟩,
    ⟨some (.server "irc.a".toList),"332".toList,["bot".toList,"#C".toList],some "old".toList⟩,
    ⟨some (.server "irc.a".toList),"324".toList,["bot".toList,"#c".toList,"+nt".toList],none⟩,
    ⟨some (.server "irc.a".toList),"TOPIC".toList,["#c".toList],some "the news".toList⟩,⟨some (.server "irc.a".toList),"TOPIC".toList,["#c".toList],some []⟩]

def topicNetwork : Network := { startNetwork with trigs := fun type => if type = .topc then ⟨[],[builtin .topc "*".toList .trollTrigUpdateTopic]⟩ else startNetwork.trigs type }

theorem topicNetwork_keeping : Keeping topicNetwork := by
  refine ⟨?_,by decide,by decide,by decide⟩
  intro type
  cases type
  all_goals simp [topicNetwork,startNetwork,defaultRaw,builtin,newTrigger,triggerKey,Belongs,Chain.empty]

theorem topic_heard : (hearLines noScripts (topicTalk.map Message.render) topicNetwork).bind (fun heard => eggTopic heard.1 (some "#c".toList)) =
    some (some "the news".toList) := by
  have heard : (hearLines noScripts (topicTalk.map Message.render) topicNetwork).isSome = true := by decide +kernel
  obtain ⟨⟨later,sent⟩,done⟩ := Option.isSome_iff_exists.mp heard
  have recordless : Recordless noScripts := by
    refine ⟨noScripts_leaves,?_⟩
    intro id net data later out done
    cases done
    rfl
  have well : ∀ msg ∈ topicTalk, msg.Readable := by
    intro msg member
    simp only [topicTalk,List.mem_cons,List.not_mem_nil,or_false] at member
    rcases member with rfl | rfl | rfl | rfl | rfl
    all_goals
      refine ⟨?_,by unfold Word; decide,by unfold Word; decide,by decide,by decide⟩
      intro origin same
      cases same
      exact ⟨by unfold Origin.WellFormed; decide,by decide⟩
  have away : Meets (hears noScripts) (fun net msg => Forwardless net (fold "#c".toList) msg) topicNetwork topicTalk := by
    refine ⟨fun _ => ⟨by decide,by decide,.inr (by decide)⟩,fun _ _ => ⟨?_,fun _ _ => ⟨?_,fun _ _ => ⟨?_,fun _ _ => ⟨?_,fun _ _ => trivial⟩⟩⟩⟩⟩
    all_goals exact other_forwardless (by decide)
  have told := (topics_followed noScripts recordless topicNetwork topicNetwork_keeping (by unfold Named; decide) "#c".toList (by decide) topicTalk
    well away rfl rfl done).1
  rw [done,Option.bind_some,told]
  decide

end Trollbot.Irc
