import Trollbot.IrcServer
import Mathlib.Data.List.InsertIdx

-- What the handlers do to the records, where no name and no nick is missing.
namespace Trollbot.Irc
open CBuffer IrcParse Roster

def ChannelUser.key (cuser : ChannelUser) : Option Str := cuser.nick.map fold
def Channel.key (chan : Channel) : Option Str := chan.name.map fold
def Channel.nicks (chan : Channel) : List (Option Str) := chan.userList.items.map ChannelUser.key

-- The user_list of the channel's record, none for a null pointer in place of a nick.
def entries (chans : List Channel) (name : Str) : List (Option Str) :=
  match first Channel.key (some name) chans with
  | none => []
  | some chan => chan.nicks

structure Channel.Named (chan : Channel) : Prop where
  name : chan.name ≠ none
  nicks : ∀ cuser ∈ chan.userList.whole, cuser.nick ≠ none

def triggerKey (trig : Trigger Handler) : Str × Option Handler := (trig.mask,trig.handler)

-- The built-in triggers are as they were made, up to their use counts, and every record has its names.
structure Equipped (net : Network) : Prop where
  botnick : net.botnick ≠ none
  join : (net.trigs .join).items.map triggerKey = [("*".toList,some .newJoin)]
  part : (net.trigs .part).items.map triggerKey = [("*".toList,some .newPart)]
  kick : (net.trigs .kick).items.map triggerKey = [("*".toList,some .newKick)]
  raw : (net.trigs .raw).items.map triggerKey = defaultRaw.map triggerKey
  named : ∀ chan ∈ net.chans, chan.Named

def Channel.place (chan : Channel) (nick : Str) : Option Nat :=
  chan.userList.items.findIdx? (fun cuser => cuser.key = some (fold nick))

def Channel.entered (nick : Str) (f : ChannelUser → ChannelUser) (chan : Channel) : Channel :=
  let found := chan.enter (some nick) (chan.place nick)
  found.1.modifyUser found.2 f

def Channel.joined (who : Who) (chan : Channel) : Channel :=
  chan.entered who.nick (fun cuser => { cuser with host := some who.host, ident := some who.user })

def Channel.left (nick : Str) (chan : Channel) : Channel := chan.delUser (chan.place nick)

def Channel.renamed (old new : Str) (chan : Channel) : Channel :=
  match chan.place old with
  | none => chan
  | some place => chan.modifyUser place (fun cuser => { cuser with nick := some new })

def Channel.populated (chan : Channel) (ptr : Str) : Channel :=
  chan.entered (ptr.dropWhile isPrefixMode)
    (fun cuser => { cuser with modes := if prefixModes ptr = [] then none else some (prefixModes ptr) })

theorem findPlace_total {test : α → Option Bool} {passes : α → Bool} {l : List α} (total : ∀ x ∈ l, test x = some (passes x)) :
    findPlace test l = some (l.findIdx? passes) := by
  induction l with
  | nil => rfl
  | cons x rest ih =>
      have here := total x (by simp)
      have later := ih (fun y member => total y (by simp [member]))
      rw [List.findIdx?_cons,findPlace,here]
      cases passes x <;> simp [later]

theorem mapM_total {f : α → Option β} {g : α → β} {l : List α} (total : ∀ x ∈ l, f x = some (g x)) : l.mapM f = some (l.map g) := by
  induction l with
  | nil => rfl
  | cons x rest ih =>
      rw [List.mapM_cons,total x (by simp),ih (fun y member => total y (by simp [member]))]
      rfl

theorem sameText_total {text : Option Str} (some' : text ≠ none) (name : Str) :
    sameText text (some name) = some (decide (text.map fold = some (fold name))) := by
  obtain ⟨text,rfl⟩ := Option.ne_none_iff_exists'.mp some'
  simp [sameText]

theorem find_named (named : Channel.Named chan) (nick : Str) : channelChannelUserFind chan (some nick) = some (chan.place nick) := by
  refine findPlace_total ?_
  intro cuser member
  exact sameText_total (named.nicks cuser (List.mem_append_right _ member)) nick

theorem find_channel (named : ∀ chan ∈ chans, Channel.Named chan) (name : Str) :
    findPlace (fun chan => sameText chan.name (some name)) chans =
      some (chans.findIdx? (fun chan => chan.key = some (fold name))) :=
  findPlace_total (fun chan member => sameText_total (named chan member).name name)

theorem find_channel' (named : ∀ chan ∈ chans, Channel.Named chan) (name : Str) :
    findPlace (fun chan => sameText (some name) chan.name) chans =
      some (chans.findIdx? (fun chan => chan.key = some (fold name))) := by
  simpa only [sameText_comm] using find_channel named name

theorem map_modify {g : α → β} {f : α → α} (same : ∀ x, g (f x) = g x) (l : List α) (i : Nat) : (l.modify i f).map g = l.map g := by
  induction l generalizing i with
  | nil => simp
  | cons x rest ih => cases i <;> simp [same,ih]

theorem map_replace {g : α → β} {f : α → α} (same : ∀ x, g (f x) = y) (l : List α) (i : Nat) :
    (l.modify i f).map g = (l.map g).set i y := by
  induction l generalizing i with
  | nil => simp
  | cons x rest ih => cases i <;> simp [same,ih]

section
variable {chan : Channel} {nick : Str} {list : List Str} (holds : chan.nicks = list.map some)
include holds

theorem place_none (absent : chan.place nick = none) : fold nick ∉ list := by
  intro member
  have listed : some (fold nick) ∈ chan.nicks := by simp [holds,member]
  obtain ⟨cuser,inside,same⟩ := List.mem_map.mp listed
  have missing := List.findIdx?_eq_none_iff.mp absent cuser inside
  simp [same] at missing

theorem place_some (found : chan.place nick = some place) : list[place]? = some (fold nick) := by
  obtain ⟨cuser,here,same,-⟩ := modify_first ChannelUser.key found
  have cell : chan.nicks[place]? = some (some (fold nick)) := by simp [Channel.nicks,here,same]
  simpa [holds] using cell

theorem nicks_entered {f : ChannelUser → ChannelUser} (same : ∀ cuser, (f cuser).key = cuser.key) (nick : Str) :
    (chan.entered nick f).nicks = (enter list (fold nick)).map some := by
  unfold Channel.entered
  cases found : chan.place nick with
  | none =>
      have absent := place_none holds found
      unfold Channel.nicks at holds ⊢
      rw [Channel.modifyUser,Chain.modify_items,map_modify same]
      simp [Channel.enter,enter,absent,holds,ChannelUser.key]
  | some place =>
      have here := List.mem_of_getElem? (place_some holds found)
      unfold Channel.nicks at holds ⊢
      rw [Channel.modifyUser,Chain.modify_items,map_modify same]
      simp [Channel.enter,enter,here,holds]

theorem nicks_left (found : chan.place nick = some place) (unlinks : chan.userList.Unlinks place) :
    (chan.left nick).nicks = (list.eraseIdx place).map some := by
  unfold Channel.nicks at holds ⊢
  simp only [Channel.left,found,Channel.delUser]
  rw [Chain.del_items unlinks,← List.eraseIdx_map,holds,List.eraseIdx_map]

theorem left_absent (absent : fold nick ∉ list) : chan.left nick = chan := by
  cases found : chan.place nick with
  | none => simp only [Channel.left,found,Channel.delUser]
  | some place => exact absurd (List.mem_of_getElem? (place_some holds found)) absent

theorem nicks_renamed (old new : Str) : (fold old ∉ list ∧ chan.renamed old new = chan) ∨
    ∃ place, list[place]? = some (fold old) ∧ (chan.renamed old new).nicks = (list.set place (fold new)).map some := by
  unfold Channel.renamed
  cases found : chan.place old with
  | none => exact .inl ⟨place_none holds found,rfl⟩
  | some place =>
      refine .inr ⟨place,place_some holds found,?_⟩
      unfold Channel.nicks at holds ⊢
      dsimp only
      have moved : ∀ cuser : ChannelUser, ({ cuser with nick := some new } : ChannelUser).key = some (fold new) := fun _ => rfl
      rw [Channel.modifyUser,Chain.modify_items,map_replace moved,holds,List.map_set]

end

section
variable {chan : Channel} (named : chan.Named)
include named

theorem named_entered {f : ChannelUser → ChannelUser} (same : ∀ cuser, (f cuser).nick = cuser.nick) (nick : Str) :
    (chan.entered nick f).Named := by
  have added : (chan.enter (some nick) (chan.place nick)).1.Named := by
    cases found : chan.place nick with
    | some place => exact named
    | none =>
        refine ⟨named.name,?_⟩
        intro cuser member
        rcases Chain.mem_add member with old | rfl
        · exact named.nicks cuser old
        · simp
  refine ⟨added.name,?_⟩
  intro cuser member
  rcases Chain.mem_modify _ member with old | ⟨before,old,rfl⟩
  · exact added.nicks cuser old
  · rw [same]
    exact added.nicks before old

theorem named_left (nick : Str) : (chan.left nick).Named := by
  unfold Channel.left
  cases chan.place nick with
  | none => exact named
  | some place => exact ⟨named.name,fun cuser member => named.nicks cuser (Chain.mem_del place member)⟩

theorem named_renamed (old new : Str) : (chan.renamed old new).Named := by
  unfold Channel.renamed
  split
  · exact named
  · refine ⟨named.name,?_⟩
    intro cuser member
    rcases Chain.mem_modify _ member with same | ⟨before,-,rfl⟩
    · exact named.nicks cuser same
    · simp

end

theorem named_populated {chan : Channel} (named : chan.Named) (ptr : Str) : (chan.populated ptr).Named := by
  refine named_entered named ?_ _
  intro cuser
  rfl

theorem populate_total (users : List Str) {chan : Channel} (named : chan.Named) :
    users.foldlM populateUser chan = some (users.foldl Channel.populated chan) ∧ (users.foldl Channel.populated chan).Named := by
  induction users generalizing chan with
  | nil => exact ⟨rfl,named⟩
  | cons ptr rest ih =>
      have here : populateUser chan ptr = some (chan.populated ptr) := by
        simp only [populateUser,find_named named,Option.bind_eq_bind,Option.bind_some]
        rfl
      rw [List.foldlM_cons,here]
      exact ih (named_populated named ptr)

@[simp] theorem name_entered (nick : Str) (f : ChannelUser → ChannelUser) (chan : Channel) : (chan.entered nick f).name = chan.name := by
  unfold Channel.entered
  cases chan.place nick <;> rfl

@[simp] theorem key_entered (nick : Str) (f : ChannelUser → ChannelUser) (chan : Channel) : (chan.entered nick f).key = chan.key := by
  simp [Channel.key]

theorem key_populated (users : List Str) (record : Channel) : (users.foldl Channel.populated record).key = record.key := by
  induction users generalizing record with
  | nil => rfl
  | cons ptr rest ih => exact (ih (record.populated ptr)).trans (key_entered _ _ record)

@[simp] theorem key_left (nick : Str) (chan : Channel) : (chan.left nick).key = chan.key := by
  unfold Channel.left
  cases chan.place nick <;> rfl

@[simp] theorem key_renamed (old new : Str) (chan : Channel) : (chan.renamed old new).key = chan.key := by
  unfold Channel.renamed
  cases chan.place old <;> rfl

-- A result with these channels, and with everything else in order.
def Ends (result : Result) (chans : List Channel) : Prop :=
  ∃ net out, result = some (net,out) ∧ net.chans = chans ∧ Equipped net

theorem ends_chans (equipped : Equipped net) (named : ∀ chan ∈ chans, Channel.Named chan) (out : List Output) :
    Ends (some ({ net with chans := chans },out)) chans :=
  ⟨_,out,rfl,rfl,⟨equipped.botnick,equipped.join,equipped.part,equipped.kick,equipped.raw,named⟩⟩

theorem named_amend (equipped : Equipped net) {f : Channel → Channel} (keeps : ∀ chan : Channel, chan.Named → (f chan).Named)
    (name : Option Str) : ∀ chan ∈ amend Channel.key name f net.chans, chan.Named := by
  intro chan member
  rcases mem_amend Channel.key member with old | ⟨before,old,-,rfl⟩
  · exact equipped.named chan old
  · exact keeps before (equipped.named before old)

theorem count_keys (type other : TrigType) (place : Nat) :
    ((countUse net type place).trigs other).items.map triggerKey = (net.trigs other).items.map triggerKey := by
  simp only [countUse]
  split
  · have counted : ∀ trig : Trigger Handler, triggerKey { trig with usecount := trig.usecount + 1 } = triggerKey trig := fun _ => rfl
    exact map_modify counted _ place
  · rfl

theorem equipped_count (equipped : Equipped net) (type : TrigType) (place : Nat) : Equipped (countUse net type place) := by
  refine ⟨equipped.botnick,?_,?_,?_,?_,equipped.named⟩
  · exact (count_keys type .join place).trans equipped.join
  · exact (count_keys type .part place).trans equipped.part
  · exact (count_keys type .kick place).trans equipped.kick
  · exact (count_keys type .raw place).trans equipped.raw

-- A handler's search for the channel finds the first record.
theorem onChannel_ends (equipped : Equipped net) {f : Channel → Option (Channel × List Output)} {g : Channel → Channel} (name : Option Str)
    (runs : ∀ chan : Channel, chan.Named → (∃ out, f chan = some (g chan,out)) ∧ (g chan).Named) :
    Ends (onChannel net (some (net.chans.findIdx? (fun chan => chan.key = name))) f) (amend Channel.key name g net.chans) := by
  have named := named_amend equipped (fun chan here => (runs chan here).2) name
  cases found : net.chans.findIdx? (fun chan => chan.key = name) with
  | none =>
      have same := amend_missing Channel.key (first_missing Channel.key found) g
      rw [same]
      exact ends_chans equipped equipped.named []
  | some place =>
      obtain ⟨chan,here,-,changes⟩ := modify_first Channel.key found
      obtain ⟨out,done⟩ := (runs chan (equipped.named chan (List.mem_of_getElem? here))).1
      simp only [onChannel,here,done,Network.modifyChan,changes g,Option.bind_eq_bind,Option.bind_some]
      exact ends_chans equipped named out

theorem replaced_all {P : Channel → Prop} {chans : List Channel} {new : Channel} (all : ∀ chan ∈ chans, P chan) (own : P new) (place : Nat) :
    ∀ chan ∈ chans.modify place (fun _ => new), P chan := by
  intro other member
  obtain ⟨i,at'⟩ := List.mem_iff_getElem?.mp member
  rw [List.getElem?_modify] at at'
  obtain ⟨before,inside,rfl⟩ := Option.map_eq_some_iff.mp at'
  split
  · exact own
  · exact all before (List.mem_of_getElem? inside)

theorem onChannel_all {P : Channel → Prop} {net next : Network} {found : Option (Option Nat)} {f : Channel → Option (Channel × List Output)}
    (all : ∀ chan ∈ net.chans, P chan) (keeps : ∀ chan chan' out, P chan → f chan = some (chan',out) → P chan')
    (ran : onChannel net found f = some (next,out)) : ∀ chan ∈ next.chans, P chan := by
  obtain ⟨place,-,ran⟩ := Option.bind_eq_some_iff.mp ran
  cases place with
  | none =>
      cases ran
      exact all
  | some place =>
      obtain ⟨chan,here,ran⟩ := Option.bind_eq_some_iff.mp ran
      obtain ⟨⟨chan',sent⟩,made,ran⟩ := Option.bind_eq_some_iff.mp ran
      cases ran
      exact replaced_all all (keeps chan chan' out (all chan (List.mem_of_getElem? here)) made) place

theorem eachChannel_all {P : Channel → Prop} {net next : Network} {f : Channel → Option Channel} (all : ∀ chan ∈ net.chans, P chan)
    (keeps : ∀ chan chan', P chan → f chan = some chan' → P chan') (ran : eachChannel net f = some (next,out)) :
    ∀ chan ∈ next.chans, P chan := by
  obtain ⟨chans,made,ran⟩ := Option.bind_eq_some_iff.mp ran
  cases ran
  intro chan member
  obtain ⟨before,inside,did⟩ := mapM_member made member
  exact keeps before chan (all before inside) did

theorem named_joined (who : Who) {chan : Channel} (named : chan.Named) : (chan.joined who).Named := by
  refine named_entered named ?_ _
  intro cuser
  rfl

section
variable {data : IrcData} {who : Who} (equipped : Equipped net)
include equipped

theorem newJoin_ends (pre : data.pre = some (who.origin.asPrefix net.nick)) (text : data.restStr = some name) :
    Ends (newJoin net data) (amend Channel.key (some (fold name)) (Channel.joined who) net.chans) := by
  obtain ⟨botnick,own⟩ := Option.ne_none_iff_exists'.mp equipped.botnick
  simp only [newJoin,pre,text,find_channel' equipped.named,Option.bind_eq_bind,Option.bind_some]
  refine onChannel_ends equipped (some (fold name)) ?_
  intro chan named
  obtain ⟨chanName,is⟩ := Option.ne_none_iff_exists'.mp named.name
  have entered : ((chan.enter (some who.nick) (chan.place who.nick)).1.modifyUser (chan.enter (some who.nick) (chan.place who.nick)).2
      (fun cuser => { cuser with host := some who.host, ident := some who.user })) = Channel.joined who chan := rfl
  have kept : (Channel.joined who chan).name = some chanName := (name_entered _ _ chan).trans is
  refine ⟨⟨if decide (tstrcasecmp botnick who.nick = 0) then joinLines chanName else [],?_⟩,named_joined who named⟩
  simp only [Who.origin,Origin.asPrefix,find_named named,own,sameText,Option.bind_eq_bind,Option.bind_some,entered,kept]

theorem newPart_ends (pre : data.pre = some (who.origin.asPrefix net.nick)) (chan : slot data.cParams 0 = some (some name)) :
    Ends (newPart net data) (amend Channel.key (some (fold name)) (Channel.left who.nick) net.chans) := by
  simp only [newPart,pre,chan,find_channel' equipped.named,Option.bind_eq_bind,Option.bind_some]
  refine onChannel_ends equipped (some (fold name)) ?_
  intro chan named
  refine ⟨⟨[],?_⟩,named_left named who.nick⟩
  simp only [Who.origin,Origin.asPrefix,find_named named,Option.bind_some]
  rfl

theorem newKick_ends (pre : data.pre = some pre') (chan : slot data.cParams 0 = some (some name))
    (kicked : slot data.cParams 1 = some (some nick)) :
    Ends (newKick net data) (amend Channel.key (some (fold name)) (Channel.left nick) net.chans) := by
  have done : Ends (onChannel net (networkChannelFind net (some name)) (fun chan => do
      let found ← channelChannelUserFind chan (some nick)
      some (chan.delUser found,[]))) (amend Channel.key (some (fold name)) (Channel.left nick) net.chans) := by
    simp only [networkChannelFind,find_channel equipped.named]
    refine onChannel_ends equipped (some (fold name)) ?_
    intro chan named
    refine ⟨⟨[],?_⟩,named_left named nick⟩
    simp only [find_named named,Option.bind_eq_bind,Option.bind_some]
    rfl
  obtain ⟨net',out,ran,chans,again⟩ := done
  simp only [Option.bind_eq_bind] at ran
  refine ⟨net',if nick = net.nick then [tsocketPrintf ("JOIN ".toList ++ name)] else [],?_,chans,again⟩
  simp only [newKick,kicked,chan,pre,ran,Option.bind_eq_bind,Option.bind_some,Option.map_some]
  split <;> rfl

theorem trollTrigUpdateNick_ends (pre : data.pre = some (who.origin.asPrefix net.nick))
    (heard : slot data.rest 0 = some (some new) ∨ ∀ chan ∈ net.chans, chan.place who.nick = none) :
    Ends (trollTrigUpdateNick net data) (net.chans.map (Channel.renamed who.nick new)) := by
  have named : ∀ chan ∈ net.chans.map (Channel.renamed who.nick new), chan.Named := by
    intro chan member
    obtain ⟨before,old,rfl⟩ := List.mem_map.mp member
    exact named_renamed (equipped.named before old) who.nick new
  simp only [trollTrigUpdateNick,pre,eachChannel,Who.origin,Origin.asPrefix,Option.bind_eq_bind,Option.bind_some]
  rw [mapM_total (g := Channel.renamed who.nick new)]
  · exact ends_chans equipped named []
  · intro chan member
    simp only [find_named (equipped.named chan member),Option.bind_some,Channel.renamed]
    cases found : chan.place who.nick with
    | none => rfl
    | some place =>
        rcases heard with spoken | absent
        · simp only [spoken,Option.bind_some]
        · exact absurd (found.symm.trans (absent chan member)) (by simp)

theorem channelListPopulate_ends (chan : slot data.cParams 2 = some (some name)) (recorded : first Channel.key (some (fold name)) net.chans ≠ none)
    (rest : data.rest = some slots) (found : words slots = some users) :
    Ends (channelListPopulate net data)
      (amend Channel.key (some (fold name)) (fun chan => users.foldl Channel.populated chan) net.chans) := by
  have some' : net.chans ≠ [] := by
    intro empty
    exact recorded (by rw [empty]; rfl)
  cases place : net.chans.findIdx? (fun chan => chan.key = some (fold name)) with
  | none => exact absurd (first_missing Channel.key place) recorded
  | some place' =>
      obtain ⟨record,here,-,changes⟩ := modify_first Channel.key place
      have named := equipped.named record (List.mem_of_getElem? here)
      simp only [channelListPopulate,if_neg some',chan,find_channel equipped.named,place,here,rest,found,(populate_total users named).1,
        Network.modifyChan,changes (fun chan => users.foldl Channel.populated chan),Option.bind_eq_bind,Option.bind_some]
      exact ends_chans equipped (named_amend equipped (fun chan here => (populate_total users here).2) _) []

end

theorem wildMatch_star (text : Str) : wildMatch text "*".toList = true := by
  cases text with
  | nil => rfl
  | cons c rest =>
      have star : "*".toList = ['*'] := rfl
      have gone : rest.dropWhile (fun _ => true) = [] := List.dropWhile_eq_nil_iff.mpr (by simp)
      simp [wildMatch,star,trollMatchwilds,gone]

section
variable {scripts : Nat → Network → IrcData → Result} {net : Network} {data : IrcData}

theorem message_command (msg : ServerMessage) : msg.message.command = msg.event.command := by
  unfold ServerMessage.message
  split <;> rfl

theorem ends_match {msg : ServerMessage} (read : decode net.nick msg.message.render = some data)
    (is : data.command = msg.event.command) (ends : Ends (triggerMatch scripts net data) chans) :
    Ends (parseIrcLine scripts net msg.message.render) chans := by
  have ping : msg.event.command ≠ "PING".toList := by cases msg.event <;> simp [ServerEvent.command]
  have host : msg.event.command ≠ "302".toList := by cases msg.event <;> simp [ServerEvent.command]
  simp only [parseIrcLine,read,Option.bind_eq_bind,Option.bind_some]
  rwa [dispatch_other is ping host]

theorem single_trigger (one : (net.trigs type).items.map triggerKey = [(mask,some handler)])
    {hit : Trigger Handler → Option Bool} (hits : ∀ trig, trig.mask = mask → hit trig = some true) :
    allTriggers scripts net data type hit = runHandler scripts net data type 0 handler := by
  obtain ⟨trig,items,key⟩ := List.map_eq_singleton_iff.mp one
  obtain ⟨is,handles⟩ := Prod.mk.inj key
  have ends : ∀ result : Result, andThen result (fun net => some (net,[])) = result := by
    intro result
    cases result with
    | none => rfl
    | some done => simp [andThen]
  simp only [allTriggers,items,eachTrigger,hits trig is,tryTrigger,if_true,runTrigger,handles,Option.bind_eq_bind,Option.bind_some,ends]

theorem raw_none (place : Nat) (trigs : List (Trigger Handler)) (none' : ∀ trig ∈ trigs, trig.mask ≠ data.command) (net : Network) :
    eachRaw scripts data place trigs net = some (net,[]) := by
  induction trigs generalizing place with
  | nil => rfl
  | cons trig rest ih =>
      rw [eachRaw,if_neg (none' trig (by simp))]
      exact ih (place + 1) (fun other member => none' other (by simp [member]))

theorem raw_single (place : Nat) (before : List (Str × Option Handler)) (trigs : List (Trigger Handler))
    (keys : trigs.map triggerKey = before ++ (data.command,some handler) :: after)
    (others : ∀ key ∈ before ++ after, key.1 ≠ data.command) (net : Network) :
    eachRaw scripts data place trigs net = runHandler scripts net data .raw (place + before.length) handler := by
  induction before generalizing place trigs with
  | nil =>
      obtain ⟨trig,rest,rfl,key,more⟩ := List.map_eq_cons_iff.mp keys
      obtain ⟨is,handles⟩ := Prod.mk.inj key
      have unmatched : ∀ other ∈ rest, other.mask ≠ data.command := by
        intro other member
        have inside : triggerKey other ∈ after := more ▸ List.mem_map_of_mem member
        exact others (triggerKey other) (by simpa using inside)
      have quiet : ∀ net, eachRaw scripts data (place + 1) rest net = some (net,[]) := raw_none (place + 1) rest unmatched
      rw [eachRaw,if_pos is,handles]
      simp only [quiet,Option.bind_eq_bind,Option.bind_some]
      cases done : runHandler scripts net data .raw (place + [].length) handler with
      | none => simp_all [andThen]
      | some result => simp_all [andThen]
  | cons key before ih =>
      obtain ⟨trig,rest,rfl,first,more⟩ := List.map_eq_cons_iff.mp keys
      have differs : trig.mask ≠ data.command := by
        have := others key (by simp)
        rwa [← first] at this
      rw [eachRaw,if_neg differs,ih (place + 1) rest more (fun other member => others other (by simp_all))]
      congr 1
      simp only [List.length_cons]
      omega

theorem runHandler_ends (ends : Ends (effect scripts handler (countUse net type place) data) chans) :
    Ends (runHandler scripts net data type place handler) chans := by
  obtain ⟨net',out,done,same,equipped⟩ := ends
  refine ⟨net',.ran type place :: out,?_,same,equipped⟩
  simp only [runHandler,done,Option.bind_eq_bind,Option.bind_some]

theorem match_join (is : data.command = "JOIN".toList) : triggerMatch scripts net data = matchJoin scripts net data := by
  unfold triggerMatch
  rw [is]
  rfl

theorem match_part (is : data.command = "PART".toList) :
    triggerMatch scripts net data = allTriggers scripts net data .part (partMask data) := by
  unfold triggerMatch
  rw [is]
  rfl

theorem match_quit (is : data.command = "QUIT".toList) : triggerMatch scripts net data = some (net,[]) := by
  unfold triggerMatch
  rw [is]
  rfl

theorem match_kick (is : data.command = "KICK".toList) :
    triggerMatch scripts net data = allTriggers scripts net data .kick (kickMask data) := by
  unfold triggerMatch
  rw [is]
  rfl

theorem match_raw (is : data.command = "NICK".toList ∨ data.command = "353".toList) :
    triggerMatch scripts net data = eachRaw scripts data 0 (net.trigs .raw).items net := by
  unfold triggerMatch
  rcases is with is | is
  · rw [is]
    rfl
  · rw [is]
    rfl

theorem first_word {slots : Slots} (reads : words slots = some found) (some' : found ≠ []) :
    ∃ w, slot (some slots) 0 = some (some w) := by
  obtain ⟨w,rest,rfl⟩ := List.exists_cons_of_ne_nil some'
  exact ⟨w,slot_word reads rfl⟩

section
variable (equipped : Equipped net)
include equipped

theorem join_heard (who : Who) (word : Word chan) (readable : (ServerMessage.message ⟨.join who chan,true⟩).Readable) :
    Ends (parseIrcLine scripts net (ServerMessage.message ⟨.join who chan,true⟩).render)
      (amend Channel.key (some (fold chan)) (Channel.joined who) net.chans) := by
  obtain ⟨data,read,out⟩ := decode_readout net.nick _ readable
  have pre : data.pre = some (who.origin.asPrefix net.nick) := out.pre
  have is : data.command = "JOIN".toList := out.command
  obtain ⟨text,slots,found,rest,reads,-,spells⟩ := out.spoken chan rfl word.1
  obtain rfl := join_word word spells
  have heard : slot (some slots) 0 = some (some chan) := slot_word reads rfl
  obtain ⟨trig,items,key⟩ := List.map_eq_singleton_iff.mp equipped.join
  obtain ⟨star,handles⟩ := Prod.mk.inj key
  refine ends_match read out.command ?_
  have goes : triggerMatch scripts net data = runHandler scripts net data .join 0 .newJoin := by
    rw [match_join is]
    simp only [matchJoin,rest,heard,pre,maskOf,Who.origin,Origin.asPrefix,items,List.head?_cons,star,wildMatch_star,tryTrigger,runTrigger,handles,
      if_true,Option.bind_eq_bind,Option.bind_some]
  rw [goes]
  exact runHandler_ends (newJoin_ends (equipped_count equipped .join 0) pre text)

theorem part_heard (who : Who) (chan : Str) (some' : reason ≠ [])
    (readable : (ServerMessage.message ⟨.part who chan (some reason),true⟩).Readable) :
    Ends (parseIrcLine scripts net (ServerMessage.message ⟨.part who chan (some reason),true⟩).render)
      (amend Channel.key (some (fold chan)) (Channel.left who.nick) net.chans) := by
  obtain ⟨data,read,out⟩ := decode_readout net.nick _ readable
  have pre : data.pre = some (who.origin.asPrefix net.nick) := out.pre
  obtain ⟨text,slots,found,rest,reads,many,-⟩ := out.spoken reason rfl some'
  obtain ⟨cells,params,names⟩ := out.params (by simp [ServerMessage.message,colonForm,ServerEvent.middles])
  have named : slot data.cParams 0 = some (some chan) := by
    rw [params]
    exact slot_word names rfl
  obtain ⟨first,heard⟩ := first_word reads many
  refine ends_match read out.command ?_
  rw [match_part out.command,single_trigger equipped.part]
  · exact runHandler_ends (newPart_ends (equipped_count equipped .part 0) pre named)
  · intro trig star
    simp only [partMask,rest,pre,Who.origin,Origin.asPrefix,heard,maskOf,star,wildMatch_star,Option.isSome_some,and_self,if_true,
      Option.bind_eq_bind,Option.bind_some]

-- A JOIN or a PART with nothing after a colon.
theorem silent_passed (msg : ServerMessage) (is : msg.event.command = "JOIN".toList ∨ msg.event.command = "PART".toList)
    (silent : msg.message.trailing.getD [] = []) (readable : msg.message.Readable) :
    Ends (parseIrcLine scripts net msg.message.render) net.chans := by
  obtain ⟨data,read,out⟩ := decode_readout net.nick _ readable
  have none' : data.rest = none := (out.silent silent).1
  have command : data.command = msg.event.command := out.command.trans (message_command msg)
  refine ends_match read command ?_
  have goes : triggerMatch scripts net data = some (net,[]) := by
    rcases is with join | part
    · rw [match_join (command.trans join),matchJoin,none']
    · rw [match_part (command.trans part),allTriggers,eachTrigger_silent]
      exact ⟨rfl,fun trig _ => ⟨false,by simp [partMask,none'],by simp⟩⟩
  rw [goes]
  exact ⟨net,[],rfl,rfl,equipped⟩

theorem quit_passed (who : Who) (reason : Str) (colon : Bool) (readable : (ServerMessage.message ⟨.quit who reason,colon⟩).Readable) :
    Ends (parseIrcLine scripts net (ServerMessage.message ⟨.quit who reason,colon⟩).render) net.chans := by
  obtain ⟨data,read,out⟩ := decode_readout net.nick _ readable
  have command : data.command = "QUIT".toList := out.command.trans (message_command ⟨.quit who reason,colon⟩)
  refine ends_match read command ?_
  rw [match_quit command]
  exact ⟨net,[],rfl,rfl,equipped⟩

-- A KICK with its nick before the colon, with a reason or without one.
theorem kick_heard (source : Origin) (chan nick : Str) (reason : Option Str) (colon : Bool) (before : ¬(colon = true ∧ reason = none))
    (readable : (ServerMessage.message ⟨.kick source chan nick reason,colon⟩).Readable) :
    Ends (parseIrcLine scripts net (ServerMessage.message ⟨.kick source chan nick reason,colon⟩).render)
      (amend Channel.key (some (fold chan)) (Channel.left nick) net.chans) := by
  obtain ⟨data,read,out⟩ := decode_readout net.nick _ readable
  have command : data.command = "KICK".toList := out.command.trans (message_command ⟨.kick source chan nick reason,colon⟩)
  have pre : data.pre = some (source.asPrefix net.nick) := by cases colon <;> exact out.pre
  obtain ⟨more,middles⟩ : ∃ more, (ServerMessage.message ⟨.kick source chan nick reason,colon⟩).middles = chan :: nick :: more := by
    cases reason with
    | none =>
        cases colon with
        | false => exact ⟨[],rfl⟩
        | true => exact absurd ⟨rfl,rfl⟩ before
    | some reason => cases colon <;> exact ⟨_,rfl⟩
  obtain ⟨cells,params,names⟩ := out.params (by rw [middles]; simp)
  rw [middles] at names
  have named : slot (some cells) 0 = some (some chan) := slot_word names rfl
  have kicked : slot (some cells) 1 = some (some nick) := slot_word names rfl
  refine ends_match read command ?_
  rw [match_kick command,single_trigger equipped.kick]
  · exact runHandler_ends (newKick_ends (equipped_count equipped .kick 0) pre (params ▸ named) (params ▸ kicked))
  · intro trig star
    simp only [kickMask,params,named,kicked,star,wildMatch_star,Option.bind_eq_bind,Option.bind_some]

-- With the nick after the colon there is no second parameter.
theorem kick_passed (source : Origin) (chan nick : Str)
    (readable : (ServerMessage.message ⟨.kick source chan nick none,true⟩).Readable) :
    Ends (parseIrcLine scripts net (ServerMessage.message ⟨.kick source chan nick none,true⟩).render) net.chans := by
  obtain ⟨data,read,out⟩ := decode_readout net.nick _ readable
  obtain ⟨cells,params,names⟩ := out.params (by simp [ServerMessage.message,colonForm,ServerEvent.middles])
  have named : slot (some cells) 0 = some (some chan) := slot_word names rfl
  have missing : slot (some cells) 1 = some none := slot_end names
  refine ends_match read out.command ?_
  have quiet : allTriggers scripts net data .kick (kickMask data) = some (net,[]) := by
    rw [allTriggers,eachTrigger_silent]
    exact ⟨rfl,fun trig _ => ⟨false,by simp [kickMask,params,named,missing],by simp⟩⟩
  rw [match_kick out.command,quiet]
  exact ⟨net,[],rfl,rfl,equipped⟩

theorem rename_heard (who : Who) (word : Word new) (heard : colon = true ∨ ∀ chan ∈ net.chans, chan.place who.nick = none)
    (readable : (ServerMessage.message ⟨.rename who new,colon⟩).Readable) :
    Ends (parseIrcLine scripts net (ServerMessage.message ⟨.rename who new,colon⟩).render)
      (net.chans.map (Channel.renamed who.nick new)) := by
  obtain ⟨data,read,out⟩ := decode_readout net.nick _ readable
  have command : data.command = "NICK".toList := out.command.trans (message_command ⟨.rename who new,colon⟩)
  have pre : data.pre = some (who.origin.asPrefix net.nick) := by cases colon <;> exact out.pre
  have told : slot data.rest 0 = some (some new) ∨ ∀ chan ∈ net.chans, chan.place who.nick = none := by
    rcases heard with rfl | absent
    · obtain ⟨-,slots,found,rest,reads,-,spells⟩ := out.spoken new rfl word.1
      obtain rfl := join_word word spells
      rw [rest]
      exact .inl (slot_word reads rfl)
    · exact .inr absent
  refine ends_match read command ?_
  have keys : (net.trigs .raw).items.map triggerKey = (defaultRaw.take 5).map triggerKey ++
      (data.command,some .trollTrigUpdateNick) :: (defaultRaw.drop 6).map triggerKey := by
    rw [equipped.raw,command]
    rfl
  rw [match_raw (.inl command),raw_single 0 _ _ keys (by rw [command]; decide)]
  exact runHandler_ends (trollTrigUpdateNick_ends (equipped_count equipped .raw _) pre told)

theorem names_heard (server target kind chan : Str) (gap : Bool) (given : List NamesEntry) (some' : given ≠ [])
    (well : ∀ entry ∈ given, NamesEntry.WellFormed entry) (recorded : first Channel.key (some (fold chan)) net.chans ≠ none)
    (readable : (ServerMessage.message ⟨.names server target kind chan given gap,true⟩).Readable) :
    Ends (parseIrcLine scripts net (ServerMessage.message ⟨.names server target kind chan given gap,true⟩).render)
      (amend Channel.key (some (fold chan)) (fun chan => (given.map NamesEntry.text).foldl Channel.populated chan) net.chans) := by
  obtain ⟨data,read,out⟩ := decode_readout net.nick _ readable
  have command : data.command = "353".toList := out.command
  obtain ⟨cells,params,names⟩ := out.params (by simp [ServerMessage.message,colonForm,ServerEvent.middles])
  have named : slot data.cParams 2 = some (some chan) := by
    rw [params]
    exact slot_word names rfl
  have each : ∀ w ∈ given.map NamesEntry.text, w ≠ [] ∧ ' ' ∉ w := by
    intro w member
    obtain ⟨entry,inside,rfl⟩ := List.mem_map.mp member
    obtain ⟨symbols,⟨some,spaceless⟩,-⟩ := well entry inside
    refine ⟨by simp [NamesEntry.text,some],?_⟩
    intro space
    rcases List.mem_append.mp space with sign | letter
    · exact absurd (symbols ' ' sign) (by decide)
    · exact spaceless letter
  obtain ⟨slots,rest,reads⟩ := decode_words net.nick _ readable gap rfl (by simpa using some') each read
  refine ends_match read command ?_
  have keys : (net.trigs .raw).items.map triggerKey = (defaultRaw.take 1).map triggerKey ++
      (data.command,some .channelListPopulate) :: (defaultRaw.drop 2).map triggerKey := by
    rw [equipped.raw,command]
    rfl
  rw [match_raw (.inr command),raw_single 0 _ _ keys (by rw [command]; decide)]
  exact runHandler_ends (channelListPopulate_ends (equipped_count equipped .raw _) named recorded rest reads)

end

end

end Trollbot.Irc
