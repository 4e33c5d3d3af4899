import Trollbot.Foundation.History
import Trollbot.Foundation.Runs
import Trollbot.ModeArgs

-- The ban lists over runs of what writes them: ban list replies, MODE messages and egg_newchanban.
namespace Trollbot.Irc
open CBuffer IrcParse Roster History

def channelChannelBanFind (chan : Channel) (find : Option Str) : Option (Option Nat) :=
  findPlace (fun ban : ChannelBan => sameText ban.mask find) chan.banlist.items

-- Nothing is done without a channel, a mask, a creator and a comment.
def eggNewchanban (net : Network) (channel ban who comment : Option Str) : Result :=
  if channel.getD [] = [] ∨ ban.getD [] = [] ∨ who.getD [] = [] ∨ comment.getD [] = [] then some (net,[]) else
  onChannel net (networkChannelFind net channel) (fun chan => do
    match ← channelChannelBanFind chan ban with
    | some _ => some (chan,[])
    | none => do
      let name ← channel
      let mask ← ban
      some ({ chan with banlist := chan.banlist.add ⟨channel,ban,who,some ['0']⟩ },
        [tsocketPrintf ("MODE ".toList ++ name ++ " +b ".toList ++ mask)]))

def eggIschanban (net : Network) (ban channel : Option Str) : Option Bool := do
  match ← networkChannelFind net channel with
  | none => some false
  | some place => do
    let chan ← net.chans[place]?
    let found ← channelChannelBanFind chan ban
    some found.isSome

-- A 367 reply: a nick, the channel and the mask, then as a rule who set it and when.
structure BanReply (name mask : Str) (msg : Message) : Prop where
  readable : msg.Readable
  command : msg.command = "367".toList
  words : ∃ nick more, msg.middles ++ msg.trailing.toList = nick :: name :: mask :: more

inductive BanEvent where
  | reply (name mask : Str) (msg : Message)
  | mode (name modes : Str) (args : List Str) (msg : Message)
  | newchanban (channel ban who comment : Option Str)

def BanEvent.WellFormed : BanEvent → Prop
  | .reply name mask msg => BanReply name mask msg
  | .mode name modes args msg => ModeMessage name modes args msg ∧ (∀ c ∈ modes, c = '+' ∨ c = '-' ∨ c = 'b') ∧ args.length = takers true modes
  | .newchanban _ _ _ _ => True

def banStep (net : Network) : BanEvent → Option Network
  | .reply _ _ msg => do
    let data ← decode net.nick msg.render
    let (net,_) ← channelBanlistAdd net data
    some net
  | .mode _ _ _ msg => do
    let data ← decode net.nick msg.render
    let (net,_) ← trollTrigUpdateMode net data
    some net
  | .newchanban channel ban who comment => do
    let (net,_) ← eggNewchanban net channel ban who comment
    some net

def BanEvent.message : BanEvent → Option Message
  | .reply _ _ msg | .mode _ _ _ msg => some msg
  | .newchanban _ _ _ _ => none

theorem onChannel_count (net : Network) (type : TrigType) (place : Nat) (found : Option (Option Nat)) (f : Channel → Option (Channel × List Output)) :
    (onChannel (countUse net type place) found f).map (fun done => done.1.chans) = (onChannel net found f).map (fun done => done.1.chans) := by
  rcases found with _ | _ | here
  · rfl
  · rfl
  · simp only [onChannel,Option.bind_eq_bind,Option.bind_some,Option.map_bind,countUse]
    congr 1
    funext chan
    simp only [Function.comp_apply,Option.map_bind]
    rfl

theorem banReply_count (net : Network) (place : Nat) (data : IrcData) :
    (channelBanlistAdd (countUse net .raw place) data).map (fun done => done.1.chans) = (channelBanlistAdd net data).map (fun done => done.1.chans) := by
  unfold channelBanlistAdd
  by_cases empty : net.chans = []
  · rw [if_pos empty,if_pos (show (countUse net .raw place).chans = [] from empty)]
    rfl
  · rw [if_neg empty,if_neg (show ¬(countUse net .raw place).chans = [] from empty)]
    cases slot data.cParams 1 with
    | none => rfl
    | some name => exact onChannel_count net .raw place (networkChannelFind net name) _

theorem mode_count (net : Network) (place : Nat) (data : IrcData) :
    (trollTrigUpdateMode (countUse net .raw place) data).map (fun done => done.1.chans) = (trollTrigUpdateMode net data).map (fun done => done.1.chans) := by
  unfold trollTrigUpdateMode
  cases slot data.cParams 0 with
  | none => rfl
  | some name => exact onChannel_count net .raw place (networkChannelFind net name) _

theorem runHandler_chans (scripts : Nat → Network → IrcData → Result) (net : Network) (data : IrcData) (place : Nat) (handler : Handler) :
    (runHandler scripts net data .raw place handler).map (fun done => done.1.chans) =
      (effect scripts handler (countUse net .raw place) data).map (fun done => done.1.chans) := by
  unfold runHandler
  cases effect scripts handler (countUse net .raw place) data <;> rfl

-- A step does to the records what the line of its message does, where the numerics have their default triggers.
theorem banStep_heard (scripts : Nat → Network → IrcData → Result) (bound : (net.trigs .raw).items.map triggerKey = defaultRaw.map triggerKey)
    (well : event.WellFormed) (line : BanEvent.message event = some msg) :
    (parseIrcLine scripts net msg.render).map (fun done => done.1.chans) = (banStep net event).map Network.chans := by
  cases event with
  | reply name mask msg =>
      cases line
      obtain ⟨data,read,out⟩ := decode_readout net.nick msg well.readable
      have command : data.command = "367".toList := out.command.trans well.command
      have keys : (net.trigs .raw).items.map triggerKey = (defaultRaw.take 4).map triggerKey ++
          (data.command,some .channelBanlistAdd) :: (defaultRaw.drop 5).map triggerKey := by
        rw [bound,command]
        rfl
      have matched : triggerMatch scripts net data = eachRaw scripts data 0 (net.trigs .raw).items net := by
        unfold triggerMatch
        rw [command]
        rfl
      simp only [parseIrcLine,banStep,read,Option.bind_eq_bind,Option.bind_some]
      rw [dispatch_other command (by decide) (by decide),matched,raw_single 0 _ _ keys (by rw [command]; decide),runHandler_chans]
      refine (banReply_count net _ data).trans ?_
      cases channelBanlistAdd net data <;> rfl
  | mode name modes args msg =>
      cases line
      obtain ⟨data,read,out⟩ := decode_readout net.nick msg well.1.readable
      have command : data.command = "MODE".toList := out.command.trans well.1.command
      have keys : (net.trigs .raw).items.map triggerKey = (defaultRaw.take 6).map triggerKey ++
          (data.command,some .trollTrigUpdateMode) :: (defaultRaw.drop 7).map triggerKey := by
        rw [bound,command]
        rfl
      have matched : triggerMatch scripts net data = eachRaw scripts data 0 (net.trigs .raw).items net := by
        unfold triggerMatch
        rw [command]
        rfl
      simp only [parseIrcLine,banStep,read,Option.bind_eq_bind,Option.bind_some]
      rw [dispatch_other command (by decide) (by decide),matched,raw_single 0 _ _ keys (by rw [command]; decide),runHandler_chans]
      refine (mode_count net _ data).trans ?_
      cases trollTrigUpdateMode net data <;> rfl
  | newchanban channel ban who comment => cases line

def maskChange (ch : Change) : Str × Bool := (fold ch.nick,ch.plus)
def onName (name : Str) (change : Str × Bool) : (Str × Str) × Bool := ((fold name,change.1),change.2)

-- What an event says of the masks of a channel, up to case.
def BanEvent.changes : BanEvent → List ((Str × Str) × Bool)
  | .reply name mask _ => [onName name (fold mask,true)]
  | .mode name modes args _ => ((pairs true modes args).map maskChange).map (onName name)
  | .newchanban channel ban who comment =>
    if channel.getD [] = [] ∨ ban.getD [] = [] ∨ who.getD [] = [] ∨ comment.getD [] = [] then []
    else [onName (channel.getD []) (fold (ban.getD []),true)]

def ChannelBan.key (ban : ChannelBan) : Option Str := ban.mask.map fold

-- Each mask of the list is there once.
structure BanSet (chan : Channel) : Prop where
  front : chan.banlist.behind = []
  masks : ∀ ban ∈ chan.banlist.items, ban.mask ≠ none
  once : (chan.banlist.items.map ChannelBan.key).Nodup

-- A channel with its names, whose ban list is a set.
structure Banned (net : Network) : Prop where
  named : ∀ chan ∈ net.chans, Channel.Named chan
  sets : ∀ chan ∈ net.chans, BanSet chan

-- Every list has each mask at most once, and for a channel with a record a mask is answered to be on
-- the list when the last event about it was an addition, or when there was none and it was before.
def BansFollow (start : Network) (events : List BanEvent) (net : Network) : Prop :=
  (∀ chan ∈ net.chans, (chan.banlist.items.map ChannelBan.key).Nodup) ∧
  ∀ name mask place, networkChannelFind start (some name) = some (some place) →
    eggIschanban net (some mask) (some name) = (eggIschanban start (some mask) (some name)).map
      (fun was => (latest (fold name,fold mask) (events.flatMap BanEvent.changes)).getD was)

-- A mask that is set is not on the list, and one that is taken off is first or second on it or not
-- there at all.
def BanFits (chan : Channel) (ch : Change) : Prop :=
  if ch.plus then chan.banPlace ch.nick = none else ∀ place, chan.banPlace ch.nick = some place → place ≤ 1

def BansFit (name who : Option Str) (chan : Channel) : List Change → Prop
  | [] => True
  | ch :: rest => BanFits chan ch ∧ BansFit name who (chan.applied name who ch) rest

-- What each event needs of the record of its channel, if there is one: a reply has a mask that is on
-- the list in the same case or not at all, and then says who set it and when; a MODE message has
-- no argument after a colon and has an origin if it sets a ban.
def BanAllowed (net : Network) : BanEvent → Prop
  | .reply name mask msg => ∀ chan, first Channel.key (some (fold name)) net.chans = some chan →
    msg.middles[2]? = some mask ∧
      ((∃ ban ∈ chan.banlist.items, ban.mask = some mask) ∨ chan.banPlace mask = none ∧ 4 < msg.middles.length)
  | .mode name modes args msg => ∀ chan, first Channel.key (some (fold name)) net.chans = some chan →
    msg.trailing = none ∧ (msg.origin ≠ none ∨ ∀ ch ∈ pairs true modes args, ch.plus = false) ∧
      BansFit (some name) (setter net.nick msg) chan (pairs true modes args)
  | .newchanban _ _ _ _ => True

def Channel.lists (chan : Channel) (mask : Str) : Bool := decide (some mask ∈ chan.banlist.items.map ChannelBan.key)

theorem lists_place (chan : Channel) (mask : Str) : chan.lists (fold mask) = (chan.banPlace mask).isSome := by
  unfold Channel.lists Channel.banPlace
  rw [Bool.eq_iff_iff,List.findIdx?_isSome]
  simp [ChannelBan.key,List.mem_map]

theorem banPlace_key {chan : Channel} (found : chan.banPlace mask = some place) :
    (chan.banlist.items.map ChannelBan.key)[place]? = some (some (fold mask)) := by
  obtain ⟨ban,here,same,-⟩ := modify_first ChannelBan.key found
  simp [here,same]

section
variable {chan : Channel} (set : BanSet chan)
include set

theorem find_ban (mask : Str) : channelChannelBanFind chan (some mask) = some (chan.banPlace mask) :=
  findPlace_total (fun ban member => sameText_total (set.masks ban member) mask)

theorem added_set (absent : chan.banPlace mask = none) (name who time : Option Str) :
    BanSet { chan with banlist := chan.banlist.add ⟨name,some mask,who,time⟩ } ∧
      ∀ m, Channel.lists { chan with banlist := chan.banlist.add ⟨name,some mask,who,time⟩ } m = after [(fold mask,true)] chan.lists m := by
  have missing : some (fold mask) ∉ chan.banlist.items.map ChannelBan.key := by
    have none' := lists_place chan mask
    rw [absent] at none'
    simpa [Channel.lists] using none'
  refine ⟨⟨?_,?_,?_⟩,?_⟩
  · show (chan.banlist.add _).behind = []
    unfold Chain.add
    split
    · rfl
    · exact set.front
  · intro ban member
    rw [Chain.add_items] at member
    rcases List.mem_append.mp member with old | new
    · exact set.masks ban old
    · obtain rfl := List.mem_singleton.mp new
      simp
  · rw [Chain.add_items,List.map_append]
    refine List.nodup_append.mpr ⟨set.once,by simp,?_⟩
    rintro x old y new rfl
    obtain rfl := List.mem_singleton.mp new
    exact missing old
  · intro m
    rw [after_one]
    unfold Channel.lists
    rw [Chain.add_items,List.map_append]
    by_cases same : fold mask = m
    · subst same
      simp [ChannelBan.key]
    · simp [ChannelBan.key,same,Ne.symm same]

theorem removed_set (here : chan.banPlace mask = some place) (near : place ≤ 1) :
    BanSet { chan with banlist := chan.banlist.del place } ∧
      ∀ m, Channel.lists { chan with banlist := chan.banlist.del place } m = after [(fold mask,false)] chan.lists m := by
  have unlinks : chan.banlist.Unlinks place := by
    rcases Nat.le_one_iff_eq_zero_or_eq_one.mp near with rfl | rfl
    · exact .inr ⟨rfl,set.front⟩
    · exact .inl rfl
  have items := Chain.del_items unlinks
  have key := banPlace_key here
  have front : (chan.banlist.del place).behind = [] := by
    rcases Nat.le_one_iff_eq_zero_or_eq_one.mp near with rfl | rfl
    · simp [Chain.del,set.front]
    · cases ahead : chan.banlist.items <;> simp [Chain.del,ahead,set.front]
  refine ⟨⟨front,?_,?_⟩,?_⟩
  · intro ban member
    rw [items] at member
    exact set.masks ban (List.mem_of_mem_eraseIdx member)
  · rw [items,← List.eraseIdx_map]
    exact set.once.sublist (List.eraseIdx_sublist _ _)
  · intro m
    rw [after_one]
    unfold Channel.lists
    rw [items,← List.eraseIdx_map]
    by_cases same : fold mask = m
    · subst same
      rw [if_pos rfl,decide_eq_false_iff_not]
      intro member
      obtain ⟨j,apart,cell⟩ := List.mem_eraseIdx_iff_getElem?.mp member
      have early := (List.getElem?_eq_some_iff.mp cell).1
      exact apart ((List.getElem?_inj early set.once).mp (cell.trans key.symm))
    · rw [if_neg same,decide_eq_decide]
      refine ⟨fun member => List.mem_of_mem_eraseIdx member,?_⟩
      intro member
      obtain ⟨j,cell⟩ := List.mem_iff_getElem?.mp member
      refine List.mem_eraseIdx_iff_getElem?.mpr ⟨j,?_,cell⟩
      rintro rfl
      exact same (Option.some.inj (Option.some.inj (key.symm.trans cell)))

theorem applied_set (fits : BanFits chan ch) (letter : ch.letter = 'b') (name who : Option Str) : BanSet (chan.applied name who ch) ∧
    ∀ m, (chan.applied name who ch).lists m = after [maskChange ch] chan.lists m := by
  unfold BanFits at fits
  unfold Channel.applied maskChange
  rw [if_pos letter]
  cases sign : ch.plus with
  | true =>
      rw [sign,if_pos rfl] at fits
      rw [if_pos rfl]
      exact added_set set fits name who none
  | false =>
      rw [sign,if_neg (by decide)] at fits
      rw [if_neg (by decide)]
      cases found : chan.banPlace ch.nick with
      | some place => exact removed_set set found (fits place found)
      | none =>
          refine ⟨set,?_⟩
          intro m
          show chan.lists m = after [(fold ch.nick,false)] chan.lists m
          rw [after_one]
          by_cases same : fold ch.nick = m
          · have absent := lists_place chan ch.nick
            rw [found,same] at absent
            rw [if_pos same]
            exact absent
          · rw [if_neg same]

end

theorem applied_rest (chan : Channel) (letter : ch.letter = 'b') (name who : Option Str) :
    (chan.applied name who ch).name = chan.name ∧ (chan.applied name who ch).userList = chan.userList := by
  unfold Channel.applied
  rw [if_pos letter]
  split
  · exact ⟨rfl,rfl⟩
  · split <;> exact ⟨rfl,rfl⟩

theorem all_applied (l : List Change) (letters : ∀ ch ∈ l, ch.letter = 'b') {chan : Channel} (set : BanSet chan) (name who : Option Str)
    (fits : BansFit name who chan l) : BanSet (l.foldl (Channel.applied name who) chan) ∧
    (∀ m, (l.foldl (Channel.applied name who) chan).lists m = after (l.map maskChange) chan.lists m) ∧
    (l.foldl (Channel.applied name who) chan).name = chan.name ∧ (l.foldl (Channel.applied name who) chan).userList = chan.userList := by
  induction l generalizing chan with
  | nil => exact ⟨set,fun m => rfl,rfl,rfl⟩
  | cons ch rest ih =>
      obtain ⟨set',lists⟩ := applied_set set fits.1 (letters ch (by simp)) name who
      obtain ⟨name',users⟩ := applied_rest chan (letters ch (by simp)) name who
      obtain ⟨again,listed,name'',users'⟩ := ih (fun other member => letters other (by simp [member])) set' fits.2
      refine ⟨again,?_,name''.trans name',users'.trans users⟩
      intro m
      have before : (chan.applied name who ch).lists = after [maskChange ch] chan.lists := funext lists
      rw [List.foldl_cons,listed,before,← after_append]
      rfl

theorem pairs_letters (letters : ∀ c ∈ modes, c = '+' ∨ c = '-' ∨ c = 'b') (member : ch ∈ pairs plus modes args) : ch.letter = 'b' := by
  induction modes generalizing plus args with
  | nil => cases member
  | cons c rest ih =>
      have others : ∀ d ∈ rest, d = '+' ∨ d = '-' ∨ d = 'b' := fun d later => letters d (by simp [later])
      by_cases taken : takes plus c = true
      · obtain rfl : c = 'b' := by
          rcases letters c (by simp) with rfl | rfl | rfl
          · cases plus <;> simp [takes] at taken
          · cases plus <;> simp [takes] at taken
          · rfl
        cases args with
        | nil => simp [pairs,taken] at member
        | cons arg args =>
            rw [pairs_taken taken] at member
            rcases List.mem_append.mp member with first | later
            · obtain rfl := List.mem_singleton.mp first
              rfl
            · exact ih others later
      · rw [pairs_passed taken] at member
        exact ih others member

-- A mode string of bans goes through where each of them fits.
theorem run_bans {modes : Str} (st : ModeState) (args : List Str) (letters : ∀ c ∈ modes, c = '+' ∨ c = '-' ∨ c = 'b')
    (enough : takers st.plus modes ≤ args.length) (chanParam : slot data.cParams 0 = some name)
    (reads : ∀ (i : Nat) (a : Str), args[i]? = some a → slot data.cParams (st.argIndex + i + 2) = some (some a))
    (origin : ∀ ch ∈ pairs st.plus modes args, ch.plus = true → data.pre ≠ none) (set : BanSet st.chan)
    (fits : BansFit name (data.pre.bind (·.nick)) st.chan (pairs st.plus modes args)) :
    ∃ plus index, modes.foldlM (modeStep data) st =
      some ⟨plus,index,(pairs st.plus modes args).foldl (Channel.applied name (data.pre.bind (·.nick))) st.chan⟩ := by
  induction modes generalizing st args with
  | nil => exact ⟨st.plus,st.argIndex,rfl⟩
  | cons c rest ih =>
      have others : ∀ d ∈ rest, d = '+' ∨ d = '-' ∨ d = 'b' := fun d later => letters d (by simp [later])
      by_cases ban : c = 'b'
      · subst ban
        have taken : takes st.plus 'b' = true := rfl
        rw [takers,if_pos taken,takes_step taken] at enough
        cases args with
        | nil => simp at enough
        | cons arg args =>
            have split : pairs st.plus ('b' :: rest) (arg :: args) = ⟨st.plus,'b',arg⟩ :: pairs st.plus rest args := pairs_taken taken rest arg args
            rw [split] at origin fits ⊢
            have heard : slot data.cParams (st.argIndex + 2) = some (some arg) := reads 0 arg rfl
            have runs : BanRuns data.pre st 'b' arg := by
              intro _
              split
              · rename_i plus
                exact origin ⟨st.plus,'b',arg⟩ (by simp) plus
              · intro ban member
                exact set.masks ban ((List.takeWhile_sublist _).subset member)
            have step := (step_ban st chanParam heard).1 runs
            obtain ⟨set',-⟩ := applied_set set fits.1 rfl name (data.pre.bind (·.nick))
            obtain ⟨plus,index,done⟩ := ih ⟨st.plus,st.argIndex + 1,st.chan.applied name (data.pre.bind (·.nick)) ⟨st.plus,'b',arg⟩⟩
              args others (by simp at enough; dsimp only; omega) (by
                intro i a here
                have later := reads (i + 1) a (by simpa using here)
                rwa [show st.argIndex + (i + 1) + 2 = st.argIndex + 1 + i + 2 by omega] at later)
              (fun ch member => origin ch (by simp [member])) set' fits.2
            refine ⟨plus,index,?_⟩
            rw [List.foldlM_cons,step,Option.bind_eq_bind,Option.bind_some,done]
            rfl
      · have sign : c = '+' ∨ c = '-' := by
          rcases letters c (by simp) with is | is | is
          · exact .inl is
          · exact .inr is
          · exact absurd is ban
        have passed : ¬takes st.plus c = true := by
          rcases sign with rfl | rfl <;> cases st.plus <;> simp [takes]
        rw [takers,if_neg passed,Nat.zero_add] at enough
        rw [pairs_passed passed] at origin fits ⊢
        obtain ⟨plus,index,done⟩ := ih { st with plus := signStep st.plus c } args others enough reads origin set fits
        refine ⟨plus,index,?_⟩
        rw [List.foldlM_cons,modeStep_sign data st sign,Option.bind_eq_bind,Option.bind_some,done]

def Network.lists (net : Network) (key : Str × Str) : Bool :=
  match first Channel.key (some key.1) net.chans with
  | none => false
  | some chan => chan.lists key.2

theorem ischanban_lists (banned : Banned net) (mask name : Str) :
    eggIschanban net (some mask) (some name) = some (net.lists (fold name,fold mask)) := by
  unfold eggIschanban Network.lists
  rw [networkChannelFind,find_channel banned.named]
  cases found : net.chans.findIdx? (fun chan => chan.key = some (fold name)) with
  | none => simp [first_missing Channel.key found]
  | some place =>
      obtain ⟨chan,here,-⟩ := modify_first Channel.key found
      have set := banned.sets chan (List.mem_of_getElem? here)
      simp only [(first_place Channel.key found).trans here,Option.bind_eq_bind,Option.bind_some,here,find_ban set,lists_place]

theorem first_replaced {chans : List Channel} {old new : Channel} (found : chans.findIdx? (fun chan => chan.key = some name) = some place)
    (here : chans[place]? = some old) (same : new.key = old.key) (n : Str) :
    first Channel.key (some n) (chans.modify place (fun _ => new)) = if n = name then some new else first Channel.key (some n) chans := by
  have places : (chans.modify place (fun _ => new)).findIdx? (fun chan => chan.key = some n) = chans.findIdx? (fun chan => chan.key = some n) := by
    rw [place_by_key,keys_replaced here same,← place_by_key]
  cases at' : chans.findIdx? (fun chan => chan.key = some n) with
  | none =>
      have apart : n ≠ name := by
        rintro rfl
        rw [found] at at'
        cases at'
      rw [first_missing Channel.key (places.trans at'),first_missing Channel.key at',if_neg apart]
  | some i =>
      rw [first_place Channel.key (places.trans at'),first_place Channel.key at']
      by_cases own : n = name
      · subst own
        obtain rfl := Option.some.inj (found.symm.trans at')
        rw [if_pos rfl,modify_here here]
      · have apart : i ≠ place := by
          rintro rfl
          obtain ⟨chan,cell,key,-⟩ := modify_first Channel.key at'
          obtain ⟨other,cell',key',-⟩ := modify_first Channel.key found
          obtain rfl := Option.some.inj (cell.symm.trans cell')
          exact own (Option.some.inj (key.symm.trans key'))
        rw [if_neg own,modify_away _ _ apart]

-- One record is replaced by one with the changed list.
theorem lists_replaced {net : Network} (banned : Banned net) (found : net.chans.findIdx? (fun chan => chan.key = some (fold name)) = some place)
    (here : net.chans[place]? = some old) (named : new.Named) (same : new.key = old.key) (set : BanSet new)
    (lists : ∀ m, new.lists m = after l old.lists m) : Banned (net.modifyChan place (fun _ => new)) ∧
      (net.modifyChan place (fun _ => new)).chans.map Channel.key = net.chans.map Channel.key ∧
      ∀ key, (net.modifyChan place (fun _ => new)).lists key = after (l.map (onName name)) net.lists key := by
  refine ⟨⟨replaced_all banned.named named place,replaced_all banned.sets set place⟩,keys_replaced here same,?_⟩
  rintro ⟨n,m⟩
  have now := first_replaced found here same n
  by_cases own : n = fold name
  · subst own
    rw [if_pos rfl] at now
    have before : first Channel.key (some (fold name)) net.chans = some old := (first_place Channel.key found).trans here
    have lists' : (fun m => net.lists (fold name,m)) = old.lists := by
      funext m
      simp only [Network.lists,before]
    have mapped := after_map (f := fun m : Str => (fold name,m)) (fun a b same => (Prod.mk.inj same).2) l net.lists m
    rw [lists',← lists m] at mapped
    simp only [Network.lists,Network.modifyChan,now]
    exact mapped.symm
  · rw [if_neg own] at now
    have away : ∀ change ∈ l.map (onName name), change.1 ≠ (n,m) := by
      intro change member is
      obtain ⟨one,-,rfl⟩ := List.mem_map.mp member
      exact own (Prod.mk.inj is).1.symm
    rw [after_away away]
    simp only [Network.lists,Network.modifyChan,now]

-- What a step has to do: the lists stay sets, the names stay, and the masks of each channel with a
-- record are on its list as the event says.
structure Stepped (net : Network) (event : BanEvent) (next : Network) : Prop where
  banned : Banned next
  names : next.chans.map Channel.key = net.chans.map Channel.key
  lists : ∀ key : Str × Str, first Channel.key (some key.1) net.chans ≠ none → next.lists key = after event.changes net.lists key

theorem stepped_away {event : BanEvent} (banned : Banned net) (missing : first Channel.key (some (fold name)) net.chans = none)
    (about : ∀ change ∈ event.changes, change.1.1 = fold name) : Stepped net event net := by
  refine ⟨banned,rfl,?_⟩
  intro key tracked
  refine (after_away ?_ _).symm
  intro change member is
  rw [← is,about change member] at tracked
  exact tracked missing

theorem stepped_by {net : Network} {event : BanEvent} (banned : Banned net)
    (found : net.chans.findIdx? (fun chan => chan.key = some (fold name)) = some place) (here : net.chans[place]? = some old)
    (set : BanSet new) (lists : ∀ m, new.lists m = after l old.lists m) (rest : new.name = old.name ∧ new.userList = old.userList)
    (about : event.changes = l.map (onName name)) : Stepped net event (net.modifyChan place (fun _ => new)) := by
  have own := banned.named old (List.mem_of_getElem? here)
  have named : new.Named := ⟨by rw [rest.1]; exact own.name,by rw [rest.2]; exact own.nicks⟩
  obtain ⟨banned',names,all⟩ := lists_replaced banned found here named (congrArg (Option.map fold) rest.1) set lists
  exact ⟨banned',names,fun key _ => by rw [all key,about]⟩

theorem reply_words (is : BanReply name mask msg) : ∃ nick rest, msg.middles = nick :: name :: rest := by
  obtain ⟨nick,more,words⟩ := is.words
  cases middles : msg.middles with
  | nil => cases text : msg.trailing <;> simp [middles,text] at words
  | cons first tail =>
      cases tail with
      | nil => cases text : msg.trailing <;> simp [middles,text] at words
      | cons second rest =>
          simp only [middles,List.cons_append,List.cons.injEq] at words
          obtain ⟨rfl,rfl,-⟩ := words
          exact ⟨first,rest,rfl⟩

theorem reply_stepped {net : Network} (banned : Banned net) (is : BanReply name mask msg) (allowed : BanAllowed net (.reply name mask msg)) :
    ∃ next, banStep net (.reply name mask msg) = some next ∧ Stepped net (.reply name mask msg) next := by
  obtain ⟨data,read,-⟩ := decode_readout net.nick msg is.readable
  obtain ⟨nick,rest,middles⟩ := reply_words is
  have slots := fun i => middle_slots (i := i) is.readable (by simp [middles]) read
  have chanParam : slot data.cParams 1 = some (some name) := by
    rw [slots 1 (by simp [middles]),middles]
    rfl
  have about : ∀ change ∈ (BanEvent.reply name mask msg).changes, change.1.1 = fold name := by
    intro change member
    obtain rfl := List.mem_singleton.mp member
    rfl
  cases found : net.chans.findIdx? (fun chan => chan.key = some (fold name)) with
  | none =>
      refine ⟨net,?_,stepped_away banned (first_missing Channel.key found) about⟩
      by_cases none' : net.chans = []
      · simp [banStep,read,channelBanlistAdd,none']
      · simp [banStep,read,channelBanlistAdd,none',chanParam,networkChannelFind,find_channel banned.named,found,onChannel]
  | some place =>
      obtain ⟨chan,here,-⟩ := modify_first Channel.key found
      have recorded := (first_place Channel.key found).trans here
      have own := banned.named chan (List.mem_of_getElem? here)
      have set := banned.sets chan (List.mem_of_getElem? here)
      obtain ⟨at',known⟩ := allowed chan recorded
      have long : 2 < msg.middles.length := (List.getElem?_eq_some_iff.mp at').1
      have maskParam : slot data.cParams 2 = some (some mask) := by rw [slots 2 (by omega),at']
      have some' : net.chans ≠ [] := by
        intro none'
        rw [none'] at here
        cases here
      have search : findPlace (fun ban : ChannelBan => ban.mask.bind (fun old => some (decide (old = mask)))) chan.banlist.items =
          some (chan.banlist.items.findIdx? (fun ban => ban.mask = some mask)) := by
        refine findPlace_total ?_
        intro ban member
        obtain ⟨old,text⟩ := Option.ne_none_iff_exists'.mp (set.masks ban member)
        simp [text]
      cases known' : chan.banlist.items.findIdx? (fun ban => ban.mask = some mask) with
      | some again =>
          refine ⟨net.modifyChan place (fun _ => chan),?_,stepped_by banned found here set (l := [(fold mask,true)]) ?_ ⟨rfl,rfl⟩ rfl⟩
          · simp [banStep,read,channelBanlistAdd,some',chanParam,networkChannelFind,find_channel banned.named,found,onChannel,here,maskParam,
              search,known']
          · intro m
            rw [after_one]
            split
            · rename_i same
              obtain ⟨inside,exact',-⟩ := List.findIdx?_eq_some_iff_getElem.mp known'
              have listed : some (fold mask) ∈ chan.banlist.items.map ChannelBan.key := by
                refine List.mem_map.mpr ⟨_,List.getElem_mem inside,?_⟩
                rw [ChannelBan.key,of_decide_eq_true exact']
                rfl
              rw [← same]
              exact decide_eq_true listed
            · rfl
      | none =>
          have absent : chan.banPlace mask = none ∧ 4 < msg.middles.length := by
            refine known.resolve_left ?_
            rintro ⟨ban,member,exact'⟩
            have apart := List.findIdx?_eq_none_iff.mp known' ban member
            simp [exact'] at apart
          obtain ⟨none',enough⟩ := absent
          have whoParam := slots 3 (by omega)
          have timeParam := slots 4 (by omega)
          rw [List.getElem?_eq_getElem enough] at timeParam
          obtain ⟨set',lists⟩ := added_set set none' (some name) msg.middles[3]? (some msg.middles[4])
          refine ⟨_,?_,stepped_by banned found here set' lists ⟨rfl,rfl⟩ rfl⟩
          simp [banStep,read,channelBanlistAdd,some',chanParam,networkChannelFind,find_channel banned.named,found,onChannel,here,maskParam,
            search,known',whoParam,timeParam]

theorem modes_stepped {net : Network} (banned : Banned net) (well : BanEvent.WellFormed (.mode name modes args msg))
    (allowed : BanAllowed net (.mode name modes args msg)) :
    ∃ next, banStep net (.mode name modes args msg) = some next ∧ Stepped net (.mode name modes args msg) next := by
  obtain ⟨is,letters,exact'⟩ := well
  obtain ⟨data,read,-⟩ := decode_readout net.nick msg is.readable
  have chanParam := (mode_name is read).1
  have about : ∀ change ∈ (BanEvent.mode name modes args msg).changes, change.1.1 = fold name := by
    intro change member
    obtain ⟨one,-,rfl⟩ := List.mem_map.mp member
    rfl
  cases found : net.chans.findIdx? (fun chan => chan.key = some (fold name)) with
  | none =>
      refine ⟨net,?_,stepped_away banned (first_missing Channel.key found) about⟩
      simp [banStep,read,trollTrigUpdateMode,chanParam,networkChannelFind,find_channel banned.named,found,onChannel]
  | some place =>
      obtain ⟨chan,here,-⟩ := modify_first Channel.key found
      have set := banned.sets chan (List.mem_of_getElem? here)
      obtain ⟨silent,sets,fits⟩ := allowed chan ((first_place Channel.key found).trans here)
      obtain ⟨mode,reads,-⟩ := mode_reads is read (.inl silent)
      rw [heardArgs,if_pos silent] at reads
      obtain ⟨pre,who⟩ := mode_origin is read
      have origin : ∀ ch ∈ pairs true modes args, ch.plus = true → data.pre ≠ none := by
        intro ch member plus
        rcases sets with from' | none'
        · rw [pre]
          simpa using from'
        · rw [none' ch member] at plus
          cases plus
      have own : ∀ ch ∈ pairs true modes args, ch.letter = 'b' := fun ch member => pairs_letters letters member
      rw [← who] at fits
      obtain ⟨plus,index,done⟩ := run_bans ⟨true,0,chan⟩ _ letters (Nat.le_of_eq exact'.symm) chanParam reads origin set fits
      obtain ⟨set',lists,rest⟩ := all_applied _ own set _ _ fits
      have at' : networkChannelFind net (some name) = some (some place) := by rw [networkChannelFind,find_channel banned.named,found]
      refine ⟨_,?_,stepped_by banned found here set' lists rest rfl⟩
      simp only [banStep,read,Option.bind_eq_bind,Option.bind_some,update_mode_runs chanParam mode at' here,done,Option.map_some]

theorem newchanban_stepped {net : Network} (banned : Banned net) (channel ban who comment : Option Str) :
    ∃ next, banStep net (.newchanban channel ban who comment) = some next ∧ Stepped net (.newchanban channel ban who comment) next := by
  by_cases refused : channel.getD [] = [] ∨ ban.getD [] = [] ∨ who.getD [] = [] ∨ comment.getD [] = []
  · refine ⟨net,by simp only [banStep,eggNewchanban,if_pos refused,Option.bind_eq_bind,Option.bind_some],banned,rfl,?_⟩
    intro key _
    simp only [BanEvent.changes,if_pos refused,after_nil]
  · cases channel with
    | none => simp at refused
    | some name =>
        cases ban with
        | none => simp at refused
        | some mask =>
            have asked : eggNewchanban net (some name) (some mask) who comment = _ := if_neg refused
            have changes : (BanEvent.newchanban (some name) (some mask) who comment).changes = [(fold mask,true)].map (onName name) := by
              simp only [BanEvent.changes,if_neg refused]
              rfl
            cases found : net.chans.findIdx? (fun chan => chan.key = some (fold name)) with
            | none =>
                refine ⟨net,?_,stepped_away banned (first_missing Channel.key found) ?_⟩
                · simp [banStep,asked,networkChannelFind,find_channel banned.named,found,onChannel]
                · intro change member
                  rw [changes] at member
                  obtain rfl := List.mem_singleton.mp member
                  rfl
            | some place =>
                obtain ⟨chan,here,-⟩ := modify_first Channel.key found
                have set := banned.sets chan (List.mem_of_getElem? here)
                cases known : chan.banPlace mask with
                | some again =>
                    refine ⟨net.modifyChan place (fun _ => chan),?_,stepped_by banned found here set ?_ ⟨rfl,rfl⟩ changes⟩
                    · simp [banStep,asked,networkChannelFind,find_channel banned.named,found,onChannel,here,
                        find_ban set,known]
                    · intro m
                      rw [after_one]
                      split
                      · rename_i same
                        rw [← same,lists_place,known]
                        rfl
                      · rfl
                | none =>
                    obtain ⟨set',lists⟩ := added_set set known (some name) who (some ['0'])
                    refine ⟨_,?_,stepped_by banned found here set' lists ⟨rfl,rfl⟩ changes⟩
                    simp [banStep,asked,networkChannelFind,find_channel banned.named,found,onChannel,here,
                      find_ban set,known]

theorem event_stepped {net : Network} (banned : Banned net) (event : BanEvent) (well : event.WellFormed) (allowed : BanAllowed net event) :
    ∃ next, banStep net event = some next ∧ Stepped net event next := by
  cases event with
  | reply name mask msg => exact reply_stepped banned well allowed
  | mode name modes args msg => exact modes_stepped banned well allowed
  | newchanban channel ban who comment => exact newchanban_stepped banned channel ban who comment

theorem first_by_keys {chans chans' : List Channel} (same : chans'.map Channel.key = chans.map Channel.key) (name : Option Str) :
    first Channel.key name chans' = none ↔ first Channel.key name chans = none := by
  have listed : ∀ l : List Channel, first Channel.key name l = none ↔ name ∉ l.map Channel.key := by
    intro l
    rw [first,List.find?_eq_none,List.mem_map]
    simp
  rw [listed,listed,same]

theorem run_stepped {start : Network} (banned : Banned start) (events : List BanEvent) (well : ∀ event ∈ events, event.WellFormed)
    (meets : Runs.Meets banStep BanAllowed start events) : ∃ net, Runs.run banStep start events = some net ∧ Banned net ∧
      ∀ key : Str × Str, first Channel.key (some key.1) start.chans ≠ none →
        net.lists key = after (events.flatMap BanEvent.changes) start.lists key := by
  induction events generalizing start with
  | nil => exact ⟨start,rfl,banned,fun key _ => rfl⟩
  | cons event rest ih =>
      obtain ⟨next,taken,stepped⟩ := event_stepped banned event (well event (by simp)) meets.1
      obtain ⟨net,ran,ends,lists⟩ := ih stepped.banned (fun other member => well other (by simp [member])) (meets.2 next taken)
      refine ⟨net,by simp [Runs.run,taken,ran],ends,?_⟩
      intro key tracked
      have still : first Channel.key (some key.1) next.chans ≠ none := fun gone => tracked ((first_by_keys stepped.names _).mp gone)
      rw [lists key still,List.flatMap_cons,after_append]
      unfold after
      rw [stepped.lists key tracked]
      rfl

-- For any run whose events are allowed, in every state that it goes through.
theorem bans_follow (start : Network) (banned : Banned start) (events : List BanEvent) (well : ∀ event ∈ events, event.WellFormed)
    (meets : Runs.Meets banStep BanAllowed start events) (sofar later : List BanEvent) (split : events = sofar ++ later) :
    ∃ net, Runs.run banStep start sofar = some net ∧ BansFollow start sofar net := by
  subst split
  obtain ⟨net,ran,ends,lists⟩ := run_stepped banned sofar (fun event member => well event (by simp [member])) (Runs.meets_before meets)
  refine ⟨net,ran,fun chan member => (ends.sets chan member).once,?_⟩
  intro name mask place found
  have tracked : first Channel.key (some (fold name)) start.chans ≠ none := by
    rw [networkChannelFind,find_channel banned.named,Option.some_inj] at found
    obtain ⟨chan,here,-⟩ := modify_first Channel.key found
    rw [(first_place Channel.key found).trans here]
    simp
  rw [ischanban_lists banned,ischanban_lists ends,lists (fold name,fold mask) tracked]
  rfl

def banOnC : Message :=
  ⟨some (.mask "op".toList "o".toList "h".toList),"MODE".toList,["#c".toList,"+b".toList,"*!*@x".toList],none⟩

theorem banOnC_message : ModeMessage "#c".toList "+b".toList ["*!*@x".toList] banOnC := by
  have each : ∀ middle ∈ banOnC.middles, middle ≠ [] ∧ ' ' ∉ middle ∧ middle.head? ≠ some ':' := by decide
  refine ⟨⟨?_,by show Word "MODE".toList; unfold Word; decide,fun middle member => each middle member,.inl (by simp [banOnC]),by decide⟩,rfl,rfl⟩
  intro origin same
  cases same
  exact ⟨by show '!' ∉ _ ∧ '@' ∉ _; decide,by decide⟩

theorem onlyC_banned : Banned onlyC := by
  refine ⟨onlyC_named,?_⟩
  intro chan member
  obtain rfl := List.mem_singleton.mp member
  exact ⟨rfl,by simp [newChannel,Chain.empty],by simp [newChannel,Chain.empty]⟩

def banCall : BanEvent := .newchanban (some "#c".toList) (some "*!*@x".toList) (some "op".toList) (some "spam".toList)
def banEcho : BanEvent := .mode "#c".toList "+b".toList ["*!*@x".toList] banOnC

theorem banEcho_well : banEcho.WellFormed := ⟨banOnC_message,by decide,by decide⟩

-- A ban that the server set, and the bot's own call for it afterwards.
theorem ban_then_call : ∃ net, Runs.run banStep onlyC [banEcho,banCall] = some net ∧ BansFollow onlyC [banEcho,banCall] net := by
  refine bans_follow onlyC onlyC_banned [banEcho,banCall] ?_ ⟨?_,fun next _ => ⟨trivial,fun _ _ => trivial⟩⟩ [banEcho,banCall] [] rfl
  · intro event member
    rcases List.mem_cons.mp member with rfl | other
    · exact banEcho_well
    · obtain rfl := List.mem_singleton.mp other
      trivial
  · intro chan recorded
    have only : first Channel.key (some (fold "#c".toList)) onlyC.chans = some (newChannel "#c".toList) := rfl
    obtain rfl := Option.some.inj (only.symm.trans recorded)
    refine ⟨rfl,.inl (by simp [banOnC]),?_,trivial⟩
    rfl

def listedC : Channel :=
  { newChannel "#c".toList with banlist := ⟨[],[⟨some "#c".toList,some "*!*@x".toList,some "op".toList,some ['0']⟩]⟩ }

def calledC : Network := { onlyC with chans := [listedC] }

-- The echo of the bot's own ban is a second entry.
theorem own_ban_twice : ¬∃ net, Runs.run banStep onlyC [banCall,banEcho] = some net ∧ BansFollow onlyC [banCall,banEcho] net := by
  rintro ⟨net,ran,single,-⟩
  have called : banStep onlyC banCall = some calledC := rfl
  obtain ⟨data,read,-⟩ := decode_readout calledC.nick banOnC banOnC_message.readable
  obtain ⟨mode,reads,-⟩ := mode_reads banOnC_message read (.inl rfl)
  have pre := (mode_origin banOnC_message read).1
  have runs : BanRuns data.pre ⟨true,0,listedC⟩ 'b' "*!*@x".toList := by
    intro _
    rw [if_pos rfl,pre]
    simp [banOnC]
  have step := (step_ban ⟨true,0,listedC⟩ (mode_name banOnC_message read).1 (reads 0 _ rfl)).1 runs
  have walked : "+b".toList.foldlM (modeStep data) ⟨true,0,listedC⟩ = modeStep data ⟨true,0,listedC⟩ 'b' := by
    show (do let st ← modeStep data ⟨true,0,listedC⟩ '+'; let st ← modeStep data st 'b'; some st) = _
    rw [modeStep_sign data _ (.inl rfl)]
    show (modeStep data ⟨true,0,listedC⟩ 'b').bind some = _
    rw [step]
    rfl
  have echoed : banStep calledC banEcho = some (calledC.modifyChan 0 (fun _ => listedC.applied (some "#c".toList) (data.pre.bind (·.nick))
      ⟨true,'b',"*!*@x".toList⟩)) := by
    have found : networkChannelFind calledC (some "#c".toList) = some (some 0) := rfl
    have handled := update_mode_runs (mode_name banOnC_message read).1 mode found (show calledC.chans[0]? = some listedC from rfl)
    rw [walked,step] at handled
    simp only [banEcho,banStep,read,handled,Option.bind_eq_bind,Option.bind_some,Option.map_some]
  simp only [Runs.run,called,echoed,Option.bind_some,Option.some_inj] at ran
  subst ran
  have twice := single _ (List.mem_singleton.mpr rfl)
  revert twice
  show ¬List.Nodup [some (fold "*!*@x".toList),some (fold "*!*@x".toList)]
  simp

end Trollbot.Irc
