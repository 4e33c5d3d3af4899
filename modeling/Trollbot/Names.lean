import Trollbot.Tracking
import Mathlib.Data.List.Induction

-- What the list of names of a channel does to the records of the channels.
namespace Trollbot.Irc
open CBuffer IrcParse Roster

def listedNick (ptr : Str) : Str := ptr.dropWhile isPrefixMode
def listedPrefix (ptr : Str) : Str := ptr.takeWhile isPrefixMode

-- A 353 reply for a channel, with its listing. The text may end in a space.
structure NamesReply (name : Str) (listing : List Str) (msg : Message) : Prop where
  readable : msg.Readable
  command : msg.command = "353".toList
  channel : msg.middles[2]? = some name
  each : ∀ w ∈ listing, w ≠ [] ∧ ' ' ∉ w
  trailing : ∃ gap : Bool, msg.trailing = some (join listing ++ if gap then [' '] else []) ∧ (listing = [] → gap = false)

-- The users of a channel that have a nick, up to case.
def Channel.called (chan : Channel) (nick : Str) : List ChannelUser :=
  chan.userList.items.filter (fun cuser => cuser.key = some nick)

def Channel.unlisted (chan : Channel) (listing : List Str) : List ChannelUser :=
  chan.userList.items.filter (fun cuser => ∀ ptr ∈ listing, cuser.key ≠ some (fold (listedNick ptr)))

def Marked (cuser : ChannelUser) (ptr : Str) : Prop :=
  ('o' ∈ cuser.modes.getD [] ↔ '@' ∈ listedPrefix ptr) ∧ ('v' ∈ cuser.modes.getD [] ↔ '+' ∈ listedPrefix ptr)

-- The channel is tracked; each nick of the reply is on it once and has the modes of its prefix; its
-- other users and the users of the other channels are the same as before.
def NamesEntered (net : Network) (name : Str) (listing : List Str) (result : Result) : Prop :=
  ∃ next out place chan, result = some (next,out) ∧ networkChannelFind next (some name) = some (some place) ∧
    next.chans[place]? = some chan ∧
    (∀ ptr ∈ listing, ∃ cuser, chan.called (fold (listedNick ptr)) = [cuser] ∧ Marked cuser ptr) ∧
    chan.unlisted listing = (net.chans[place]?.map (fun old => old.unlisted listing)).getD [] ∧
    ∀ other, other ≠ place → next.chans[other]?.map (·.userList) = net.chans[other]?.map (·.userList)

-- The channel has a record, the reply has a nick, none of its nicks is on the record twice, and what
-- it lists twice it lists with the same letters.
structure Enterable (net : Network) (name : Str) (listing : List Str) : Prop where
  listed : listing ≠ []
  recorded : ∃ chan, first Channel.key (some (fold name)) net.chans = some chan ∧
    ∀ ptr ∈ listing, (chan.called (fold (listedNick ptr))).length ≤ 1
  alike : ∀ ptr ∈ listing, ∀ other ∈ listing, fold (listedNick ptr) = fold (listedNick other) →
    ('@' ∈ listedPrefix ptr ↔ '@' ∈ listedPrefix other) ∧ ('+' ∈ listedPrefix ptr ↔ '+' ∈ listedPrefix other)

theorem marked_modes {cuser : ChannelUser} (modes : cuser.modes = if prefixModes ptr = [] then none else some (prefixModes ptr)) :
    Marked cuser ptr := by
  have letters : cuser.modes.getD [] = prefixModes ptr := by
    rw [modes]
    split
    · rename_i empty
      exact empty.symm
    · rfl
  rw [Marked,letters]
  have signs : ∀ c ∈ listedPrefix ptr, c = '@' ∨ c = '+' := by
    intro c member
    simpa [isPrefixMode] using List.mem_takeWhile_imp member
  constructor
  · constructor
    · intro op
      obtain ⟨c,member,same⟩ := List.mem_map.mp op
      by_cases at' : c = '@'
      · exact at' ▸ member
      · simp [at'] at same
    · exact fun member => List.mem_map.mpr ⟨'@',member,rfl⟩
  · constructor
    · intro voice
      obtain ⟨c,member,same⟩ := List.mem_map.mp voice
      rcases signs c member with rfl | rfl
      · simp at same
      · exact member
    · exact fun member => List.mem_map.mpr ⟨'+',member,rfl⟩

theorem modify_added {α : Type} (l : List α) (x : α) (f : α → α) : (l ++ [x]).modify l.length f = l ++ [f x] := by
  induction l with
  | nil => rfl
  | cons y rest ih => simp [ih]

theorem modify_here {α : Type} {l : List α} {x : α} (here : l[i]? = some x) (f : α → α) : (l.modify i f)[i]? = some (f x) := by
  simp [here]

theorem modify_away {α : Type} (l : List α) (f : α → α) (apart : j ≠ i) : (l.modify i f)[j]? = l[j]? := by
  simp [Ne.symm apart]

-- One entry: the first user with the nick gets the modes, or a new user does.
theorem populated_items (chan : Channel) (ptr : Str) (modes : Option Str)
    (is : modes = if prefixModes ptr = [] then none else some (prefixModes ptr)) :
    (first ChannelUser.key (some (fold (listedNick ptr))) chan.userList.items = none ∧
      (chan.populated ptr).userList.items = chan.userList.items ++ [⟨some (listedNick ptr),none,modes,none⟩]) ∨
    (first ChannelUser.key (some (fold (listedNick ptr))) chan.userList.items ≠ none ∧ (chan.populated ptr).userList.items =
      amend ChannelUser.key (some (fold (listedNick ptr))) (fun cuser => { cuser with modes := modes }) chan.userList.items) := by
  cases found : chan.place (listedNick ptr) with
  | none =>
      refine .inl ⟨first_missing ChannelUser.key found,?_⟩
      have place : chan.place (ptr.dropWhile isPrefixMode) = none := found
      simp only [Channel.populated,Channel.entered,place,Channel.enter,Channel.modifyUser,Chain.modify_items,Chain.add_items,is]
      rw [modify_added]
      rfl
  | some place =>
      refine .inr ⟨?_,?_⟩
      · obtain ⟨cuser,here,same,-⟩ := modify_first ChannelUser.key found
        intro missing
        rw [first,List.find?_eq_none] at missing
        exact missing cuser (List.mem_of_getElem? here) (by simpa using same)
      · have place' : chan.place (ptr.dropWhile isPrefixMode) = some place := found
        simp only [Channel.populated,Channel.entered,place',Channel.enter,Channel.modifyUser,Chain.modify_items,is]
        exact modify_amend ChannelUser.key found _

theorem populated_called (chan : Channel) (ptr : Str) : ∃ cuser rest, (chan.populated ptr).called (fold (listedNick ptr)) = cuser :: rest ∧
    Marked cuser ptr ∧ (cuser :: rest).length = max 1 (chan.called (fold (listedNick ptr))).length := by
  rcases populated_items chan ptr _ rfl with ⟨missing,items⟩ | ⟨some',items⟩
  · have empty : chan.called (fold (listedNick ptr)) = [] := by
      rw [first,List.find?_eq_none] at missing
      exact List.filter_eq_nil_iff.mpr missing
    refine ⟨⟨some (listedNick ptr),none,if prefixModes ptr = [] then none else some (prefixModes ptr),none⟩,[],?_,marked_modes rfl,by simp [empty]⟩
    unfold Channel.called at empty ⊢
    rw [items,List.filter_append,empty]
    simp [ChannelUser.key]
  · obtain ⟨pre,cuser,post,split,before,same,done⟩ := amend_split ChannelUser.key some'
      (fun cuser => { cuser with modes := if prefixModes ptr = [] then none else some (prefixModes ptr) })
    have skipped : pre.filter (fun cuser => cuser.key = some (fold (listedNick ptr))) = [] :=
      List.filter_eq_nil_iff.mpr (fun y member => by simpa using before y member)
    have kept : ChannelUser.key { cuser with modes := if prefixModes ptr = [] then none else some (prefixModes ptr) } =
        some (fold (listedNick ptr)) := same
    refine ⟨{ cuser with modes := if prefixModes ptr = [] then none else some (prefixModes ptr) },
      post.filter (fun cuser => cuser.key = some (fold (listedNick ptr))),?_,marked_modes rfl,?_⟩
    · simp only [Channel.called,items,done,List.filter_append,skipped,List.nil_append,List.filter_cons,kept,decide_true,if_true]
    · simp only [Channel.called,split,List.filter_append,skipped,List.nil_append,List.filter_cons,same,decide_true,if_true,List.length_cons]
      omega

-- The users that a test tells apart from the ones with the nick.
theorem populated_others (chan : Channel) (ptr : Str) (test : ChannelUser → Bool)
    (apart : ∀ cuser : ChannelUser, cuser.key = some (fold (listedNick ptr)) → test cuser = false) :
    (chan.populated ptr).userList.items.filter test = chan.userList.items.filter test := by
  rcases populated_items chan ptr _ rfl with ⟨-,items⟩ | ⟨some',items⟩
  · rw [items,List.filter_append,List.filter_cons]
    simp [apart ⟨some (listedNick ptr),none,if prefixModes ptr = [] then none else some (prefixModes ptr),none⟩ rfl]
  · obtain ⟨pre,cuser,post,split,-,same,done⟩ := amend_split ChannelUser.key some'
      (fun cuser => { cuser with modes := if prefixModes ptr = [] then none else some (prefixModes ptr) })
    have kept := apart { cuser with modes := if prefixModes ptr = [] then none else some (prefixModes ptr) } same
    rw [items,done,split]
    simp only [List.filter_append,List.filter_cons,kept,apart cuser same,Bool.false_eq_true,if_false]

theorem all_others (chan : Channel) (listing : List Str) (test : ChannelUser → Bool)
    (apart : ∀ ptr ∈ listing, ∀ cuser : ChannelUser, cuser.key = some (fold (listedNick ptr)) → test cuser = false) :
    (listing.foldl Channel.populated chan).userList.items.filter test = chan.userList.items.filter test := by
  induction listing generalizing chan with
  | nil => rfl
  | cons ptr rest ih =>
      rw [List.foldl_cons,ih (chan.populated ptr) (fun other member => apart other (by simp [member]))]
      exact populated_others chan ptr test (apart ptr (by simp))

theorem all_unlisted (chan : Channel) (listing : List Str) : (listing.foldl Channel.populated chan).unlisted listing = chan.unlisted listing := by
  refine all_others chan listing _ ?_
  intro ptr member cuser same
  rw [decide_eq_false_iff_not]
  exact fun all => all ptr member same

theorem all_called (chan : Channel) (listing : List Str) (nick : Str) (listed : ∃ ptr ∈ listing, fold (listedNick ptr) = nick) :
    ∃ ptr ∈ listing, fold (listedNick ptr) = nick ∧ ∃ cuser rest, (listing.foldl Channel.populated chan).called nick = cuser :: rest ∧
      Marked cuser ptr ∧ (cuser :: rest).length = max 1 (chan.called nick).length := by
  induction listing using List.reverseRecOn with
  | nil =>
      obtain ⟨ptr,member,-⟩ := listed
      cases member
  | append_singleton front last ih =>
      rw [List.foldl_append,List.foldl_cons,List.foldl_nil]
      by_cases own : fold (listedNick last) = nick
      · subst own
        obtain ⟨cuser,rest,called,marked,length⟩ := populated_called (front.foldl Channel.populated chan) last
        refine ⟨last,by simp,rfl,cuser,rest,called,marked,?_⟩
        rw [length]
        by_cases earlier : ∃ ptr ∈ front, fold (listedNick ptr) = fold (listedNick last)
        · obtain ⟨_,_,_,first,more,before,-,count⟩ := ih earlier
          rw [before,count]
          omega
        · have same : (front.foldl Channel.populated chan).called (fold (listedNick last)) = chan.called (fold (listedNick last)) := by
            refine all_others chan front _ ?_
            intro ptr member cuser same
            rw [decide_eq_false_iff_not,same]
            exact fun is => earlier ⟨ptr,member,Option.some.inj is⟩
          rw [same]
      · have others := populated_others (front.foldl Channel.populated chan) last (fun cuser => cuser.key = some nick) (by
          intro cuser same
          rw [decide_eq_false_iff_not,same]
          exact fun is => own (Option.some.inj is))
        obtain ⟨ptr,member,same⟩ := listed
        have inside : ptr ∈ front := by
          rcases List.mem_append.mp member with early | late
          · exact early
          · obtain rfl := List.mem_singleton.mp late
            exact absurd same own
        obtain ⟨ptr',member',same',cuser,rest,called,marked,length⟩ := ih ⟨ptr,inside,same⟩
        refine ⟨ptr',List.mem_append_left _ member',same',cuser,rest,?_,marked,length⟩
        rw [← called]
        exact others

theorem names_read (reply : NamesReply name listing msg) (read : decode netNick msg.render = some data) :
    slot data.cParams 2 = some (some name) ∧ data.rest.bind words = if listing = [] then none else some listing := by
  obtain ⟨data',decoded,out⟩ := decode_readout netNick msg reply.readable
  obtain rfl : data = data' := Option.some.inj (read.symm.trans decoded)
  obtain ⟨slots,params,found⟩ := out.params (by
    intro empty
    have := reply.channel
    simp [empty] at this)
  refine ⟨by rw [params]; exact slot_word found reply.channel,?_⟩
  obtain ⟨gap,trailing,none'⟩ := reply.trailing
  by_cases empty : listing = []
  · have silent := (out.silent (by rw [trailing,empty,none' empty]; rfl)).1
    simp [empty,silent]
  · obtain ⟨cells,rest,reads⟩ := decode_words netNick msg reply.readable gap trailing empty reply.each read
    simp [rest,reads,empty]

theorem place_by_key (chans : List Channel) (k : Option Str) :
    chans.findIdx? (fun chan => chan.key = k) = (chans.map Channel.key).findIdx? (fun other => other = k) := by
  rw [List.findIdx?_map]
  rfl

theorem keys_replaced {chans : List Channel} {old new : Channel} (here : chans[place]? = some old) (same : new.key = old.key) :
    (chans.modify place (fun _ => new)).map Channel.key = chans.map Channel.key := by
  have cell : (chans.map Channel.key)[place]? = some old.key := by simp [here]
  obtain ⟨inside,value⟩ := List.getElem?_eq_some_iff.mp cell
  rw [map_replace (fun _ => same),← value,List.set_getElem_self]

-- A record is replaced by one with the same name: the search finds what it found.
theorem find_replaced {chans : List Channel} {old new : Channel} (named : ∀ chan ∈ chans, Channel.Named chan) (again : new.Named)
    (here : chans[place]? = some old) (same : new.key = old.key) (name : Str) :
    findPlace (fun chan => sameText chan.name (some name)) (chans.modify place (fun _ => new)) =
      some (chans.findIdx? (fun chan => chan.key = some (fold name))) := by
  have still : ∀ other ∈ chans.modify place (fun _ => new), other.Named := replaced_all named again place
  rw [find_channel still,place_by_key,keys_replaced here same,← place_by_key]

theorem populate_recorded {net : Network} (named : ∀ chan ∈ net.chans, Channel.Named chan) (reply : NamesReply name listing msg)
    (read : decode net.nick msg.render = some data) (listed : listing ≠ [])
    (found : net.chans.findIdx? (fun chan => chan.key = some (fold name)) = some place) (here : net.chans[place]? = some chan) :
    channelListPopulate net data = some (net.modifyChan place (fun _ => listing.foldl Channel.populated chan),[]) ∧
      networkChannelFind (net.modifyChan place (fun _ => listing.foldl Channel.populated chan)) (some name) = some (some place) := by
  obtain ⟨chanParam,users⟩ := names_read reply read
  rw [if_neg listed] at users
  have some' : net.chans ≠ [] := by
    intro empty
    rw [empty] at found
    cases found
  have channel := named chan (List.mem_of_getElem? here)
  obtain ⟨populated,again⟩ := populate_total listing channel
  constructor
  · simp only [channelListPopulate,if_neg some',chanParam,find_channel named,found,here,users,populated,Option.bind_eq_bind,Option.bind_some]
  · rw [networkChannelFind,Network.modifyChan,find_replaced named again here (key_populated listing chan) name,found]

-- Without a record the names go to the channel before the new one.
theorem populate_unrecorded {net : Network} (named : ∀ chan ∈ net.chans, Channel.Named chan) (reply : NamesReply name listing msg)
    (read : decode net.nick msg.render = some data) (missing : net.chans.findIdx? (fun chan => chan.key = some (fold name)) = none)
    (ran : channelListPopulate net data = some (next,out)) (found : networkChannelFind next (some name) = some (some place))
    (here : next.chans[place]? = some chan) : chan = newChannel name := by
  obtain ⟨chanParam,users⟩ := names_read reply read
  have some' : net.chans ≠ [] := by
    intro empty
    simp [channelListPopulate,empty] at ran
  have short : 0 < net.chans.length := List.length_pos_of_ne_nil some'
  simp only [channelListPopulate,if_neg some',chanParam,find_channel named,missing,Option.map_some,Option.bind_eq_bind,Option.bind_some] at ran
  obtain ⟨last,lastHere,ran⟩ := Option.bind_eq_some_iff.mp ran
  obtain ⟨ptrs,-,ran⟩ := Option.bind_eq_some_iff.mp ran
  obtain ⟨filled,populated,same⟩ := Option.bind_eq_some_iff.mp ran
  cases same
  rw [List.getElem?_append_left (by omega)] at lastHere
  have channel := named last (List.mem_of_getElem? lastHere)
  obtain ⟨total,again⟩ := populate_total ptrs channel
  obtain rfl := Option.some.inj (total.symm.trans populated)
  have added : ∀ other ∈ net.chans ++ [newChannel name], Channel.Named other := by
    intro other member
    rcases List.mem_append.mp member with old | new
    · exact named other old
    · obtain rfl := List.mem_singleton.mp new
      exact ⟨by simp [newChannel],by simp [newChannel,Chain.whole,Chain.empty]⟩
  have lastIn : (net.chans ++ [newChannel name])[net.chans.length - 1]? = some last := by
    rw [List.getElem?_append_left (by omega)]
    exact lastHere
  have own : (newChannel name).key = some (fold name) := rfl
  rw [networkChannelFind,Network.modifyChan,find_replaced added again lastIn (key_populated ptrs last) name,List.findIdx?_append,missing] at found
  simp only [List.findIdx?_cons,own,decide_true,if_true,Option.map_some,Nat.zero_add,Option.none_or,Option.some.injEq] at found
  subst found
  have cell : ((net.chans ++ [newChannel name]).modify (net.chans.length - 1) (fun _ => ptrs.foldl Channel.populated last))[net.chans.length]? =
      some chan := here
  rw [modify_away _ _ (by omega),List.getElem?_append_right (Nat.le_refl _)] at cell
  simpa using cell.symm

-- The reply of a recorded channel, with what it shows afterwards.
theorem names_recorded {net : Network} (named : ∀ chan ∈ net.chans, Channel.Named chan) (reply : NamesReply name listing msg)
    (read : decode net.nick msg.render = some data) (listed : listing ≠ [])
    (found : net.chans.findIdx? (fun chan => chan.key = some (fold name)) = some place) (here : net.chans[place]? = some old) :
    NamesEntered net name listing (channelListPopulate net data) ↔
      ∀ ptr ∈ listing, ∃ cuser, (listing.foldl Channel.populated old).called (fold (listedNick ptr)) = [cuser] ∧ Marked cuser ptr := by
  obtain ⟨ran,again⟩ := populate_recorded named reply read listed found here
  have cell : (net.modifyChan place (fun _ => listing.foldl Channel.populated old)).chans[place]? =
      some (listing.foldl Channel.populated old) := modify_here here _
  constructor
  · rintro ⟨next,out,place',chan,result,again',here',all,-,-⟩
    rw [ran,Option.some.injEq,Prod.mk.injEq] at result
    obtain ⟨rfl,rfl⟩ := result
    rw [again,Option.some.injEq,Option.some.injEq] at again'
    subst again'
    rw [cell,Option.some.injEq] at here'
    subst here'
    exact all
  · intro all
    refine ⟨_,[],place,_,ran,again,cell,all,?_,?_⟩
    · rw [all_unlisted,here]
      rfl
    · intro other apart
      rw [Network.modifyChan,modify_away _ _ apart]

theorem names_entered_iff {net : Network} (named : ∀ chan ∈ net.chans, Channel.Named chan) (reply : NamesReply name listing msg)
    (read : decode net.nick msg.render = some data) :
    NamesEntered net name listing (channelListPopulate net data) ↔ Enterable net name listing := by
  by_cases listed : listing = []
  · constructor
    · rintro ⟨next,out,place,chan,ran,-⟩
      obtain ⟨chanParam,users⟩ := names_read reply read
      rw [if_pos listed] at users
      have stops : channelListPopulate net data = none := by
        by_cases none' : net.chans = []
        · rw [channelListPopulate,if_pos none']
        · cases found : net.chans.findIdx? (fun chan => chan.key = some (fold name)) <;>
            simp [channelListPopulate,none',chanParam,find_channel named,found,users]
      rw [stops] at ran
      cases ran
    · exact fun enterable => absurd listed enterable.listed
  · cases found : net.chans.findIdx? (fun chan => chan.key = some (fold name)) with
    | none =>
        constructor
        · rintro ⟨next,out,place,chan,ran,again,here,all,-⟩
          obtain rfl := populate_unrecorded named reply read found ran again here
          obtain ⟨ptr,rest,rfl⟩ := List.exists_cons_of_ne_nil listed
          obtain ⟨cuser,called,-⟩ := all ptr (by simp)
          simp [Channel.called,newChannel,Chain.empty] at called
        · intro enterable
          obtain ⟨chan,recorded,-⟩ := enterable.recorded
          rw [first_missing Channel.key found] at recorded
          cases recorded
    | some place =>
        obtain ⟨old,here,same,-⟩ := modify_first Channel.key found
        have record : first Channel.key (some (fold name)) net.chans = some old := (first_place Channel.key found).trans here
        rw [names_recorded named reply read listed found here]
        constructor
        · intro all
          refine ⟨listed,⟨old,record,?_⟩,?_⟩
          · intro ptr member
            obtain ⟨cuser,called,-⟩ := all ptr member
            obtain ⟨_,-,-,first,rest,called',-,length⟩ := all_called old listing _ ⟨ptr,member,rfl⟩
            rw [called] at called'
            rw [← called'] at length
            simp only [List.length_singleton] at length
            omega
          · intro ptr member other member' same'
            obtain ⟨cuser,called,marked⟩ := all ptr member
            obtain ⟨cuser',called',marked'⟩ := all other member'
            rw [← same',called] at called'
            cases called'
            exact ⟨marked.1.symm.trans marked'.1,marked.2.symm.trans marked'.2⟩
        · intro enterable ptr member
          obtain ⟨chan,recorded,single⟩ := enterable.recorded
          obtain rfl := Option.some.inj (record.symm.trans recorded)
          obtain ⟨last,inside,nick,cuser,rest,called,marked,length⟩ := all_called old listing _ ⟨ptr,member,rfl⟩
          have short := single ptr member
          have only : rest = [] := List.eq_nil_of_length_eq_zero (by simp only [List.length_cons] at length; omega)
          obtain ⟨op,voice⟩ := enterable.alike last inside ptr member nick
          exact ⟨cuser,by rw [called,only],marked.1.trans op,marked.2.trans voice⟩

-- For any records, any reply and any listing of it.
theorem names_reply_updates (net : Network) (named : ∀ chan ∈ net.chans, Channel.Named chan) (name : Str) (listing : List Str) (msg : Message)
    (reply : NamesReply name listing msg) : ∃ data, decode net.nick msg.render = some data ∧
      (NamesEntered net name listing (channelListPopulate net data) ↔ Enterable net name listing) := by
  obtain ⟨data,read,-⟩ := decode_readout net.nick msg reply.readable
  exact ⟨data,read,names_entered_iff named reply read⟩

def onlyC : Network := ⟨"bot".toList,none,none,none,.idle,[newChannel "#c".toList],newTrigTable⟩

def listOf (name : Str) : Message :=
  ⟨some (.server "irc.net".toList),"353".toList,["bot".toList,"=".toList,name],some "@bot +ann".toList⟩

theorem onlyC_named : ∀ chan ∈ onlyC.chans, Channel.Named chan := by
  intro chan member
  obtain rfl := List.mem_singleton.mp member
  exact ⟨by simp [newChannel],by simp [newChannel,Chain.whole,Chain.empty]⟩

theorem listOf_reply (named : name = "#c".toList ∨ name = "#d".toList) : NamesReply name ["@bot".toList,"+ann".toList] (listOf name) := by
  refine ⟨⟨?_,by show Word "353".toList; unfold Word; decide,?_,.inl (by simp [listOf]),?_⟩,rfl,rfl,by decide,false,rfl,by decide⟩
  · intro origin same
    cases same
    exact ⟨by show '!' ∉ _; decide,by decide⟩
  · have each : ∀ middle ∈ (listOf name).middles, middle ≠ [] ∧ ' ' ∉ middle ∧ middle.head? ≠ some ':' := by
      rcases named with rfl | rfl <;> decide
    exact fun middle member => each middle member
  · rcases named with rfl | rfl <;> decide

theorem own_names_enter : ∃ data, decode onlyC.nick (listOf "#c".toList).render = some data ∧
    NamesEntered onlyC "#c".toList ["@bot".toList,"+ann".toList] (channelListPopulate onlyC data) := by
  obtain ⟨data,read,exact'⟩ := names_reply_updates onlyC onlyC_named "#c".toList _ _ (listOf_reply (.inl rfl))
  refine ⟨data,read,exact'.mpr ⟨by simp,⟨newChannel "#c".toList,rfl,?_⟩,by decide⟩⟩
  intro ptr _
  simp [Channel.called,newChannel,Chain.empty]

-- The users of an unrecorded channel are put on #c.
theorem new_channel_names_astray : ¬∀ data, decode onlyC.nick (listOf "#d".toList).render = some data →
    NamesEntered onlyC "#d".toList ["@bot".toList,"+ann".toList] (channelListPopulate onlyC data) := by
  intro all
  obtain ⟨data,read,-⟩ := decode_readout onlyC.nick _ (listOf_reply (.inr rfl)).readable
  obtain ⟨chan,recorded,-⟩ := ((names_entered_iff onlyC_named (listOf_reply (.inr rfl)) read).mp (all data read)).recorded
  revert recorded
  simp [onlyC,first,newChannel,Channel.key,fold,tolower]

end Trollbot.Irc
