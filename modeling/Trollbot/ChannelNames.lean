import Trollbot.Botnick
import Trollbot.ConfigReads
import Mathlib.Data.List.Nodup

-- The names of a network's channel records, from the configuration on.
namespace Trollbot.ConfigEngine
open Tconfig Linked

-- chan_init for one network, over the blocks of its channel file. None is a crash; blocks without a key
-- end the file, and a channel that is there already is dropped.
def chanInit : List Channel → List (Entry × Forest Entry) → Option (List Channel)
  | chans,[] => some chans
  | chans,(tmp,child) :: rest =>
    match tmp.key with
    | none => some chans
    | some key =>
      if key = "channel".toList then do
        match ← newChanFromTconfigBlock tmp child with
        | none => chanInit chans rest
        | some chan => do
          match ← Irc.findPlace (fun tmpchan => Irc.sameText tmpchan.name chan.name) chans with
          | some _ => chanInit chans rest
          | none => chanInit (chans ++ [chan]) rest
      else chanInit chans rest

-- Every record has a name, and no two have the same.
def Distinct (names : List (Option Str)) : Prop := none ∉ names ∧ (names.map (fun name => name.map fold)).Nodup

instance (names : List (Option Str)) : Decidable (Distinct names) := inferInstanceAs (Decidable (_ ∧ _))

theorem channelOf_other (keyed : e.key = some key) (other : key ≠ "channel".toList) (child : Forest Entry) : channelOf (e,child) = none := by
  simp only [channelOf,newChanFromTconfigBlock,keyed,Option.bind_eq_bind,Option.bind_some,if_neg other]
  rfl

theorem made_named (made : newChanFromTconfigBlock tcfg child = some (some chan)) : ∃ name, chan.name = some name := by
  obtain ⟨key,-,made⟩ := Option.bind_eq_some_iff.mp made
  split at made
  · split at made
    · cases made
    · obtain ⟨name,-,made⟩ := Option.bind_eq_some_iff.mp made
      cases made
      exact ⟨name,rfl⟩
  · cases made

section
variable {κ : Type} {features : Features}

-- One setting of a network adds the channel that it describes.
theorem networkOption_chans {cfg cfg' : Config κ} (taken : networkOption features (cfg,net) search = some (cfg',net')) :
    cfg'.networks = cfg.networks ∧ net'.chans = net.chans ++ (channelOf search).toList ∧
      ∀ chan ∈ channelOf search, ∃ name, chan.name = some name := by
  obtain ⟨e,child⟩ := search
  obtain ⟨key,keyed,taken⟩ := Option.bind_eq_some_iff.mp taken
  by_cases channel : key = "channel".toList
  · have tables : textKeys.lookup key = none ∧ numberKeys.lookup key = none ∧ (scriptKeys features).lookup key = none := by
      rw [channel]
      refine ⟨by decide,by decide,?_⟩
      obtain ⟨javascript,tcl,php,python⟩ := features
      cases javascript <;> cases tcl <;> cases python <;> rfl
    have apart : key ≠ "console".toList ∧ key ≠ "handlen".toList ∧ key ≠ "phpscript".toList ∧ key ≠ "server".toList := by
      rw [channel]
      decide
    simp only [tables,if_neg apart.1,if_neg apart.2.1,if_neg (fun both : _ ∧ _ => apart.2.2.1 both.1),if_neg apart.2.2.2,if_pos channel] at taken
    obtain ⟨chan,made,taken⟩ := Option.map_eq_some_iff.mp taken
    cases taken
    have same : channelOf (e,child) = chan := by
      rw [channelOf,made]
      rfl
    rw [same]
    refine ⟨rfl,rfl,?_⟩
    rintro chan rfl
    exact made_named made
  · rw [channelOf_other keyed channel child,Option.toList_none,List.append_nil]
    have none' : ∀ chan ∈ (none : Option Channel), ∃ name, chan.name = some name := by simp
    refine and_assoc.mp ⟨?_,none'⟩
    dsimp only at taken
    split at taken
    · cases taken
      exact ⟨rfl,rfl⟩
    · split at taken
      · obtain ⟨value,-,taken⟩ := Option.map_eq_some_iff.mp taken
        cases taken
        exact ⟨rfl,rfl⟩
      · cases taken
        exact ⟨rfl,rfl⟩
    · cases taken
      exact ⟨rfl,rfl⟩
    · split at taken
      · cases taken
        exact ⟨rfl,rfl⟩
      · split at taken
        · obtain ⟨value,-,taken⟩ := Option.map_eq_some_iff.mp taken
          cases taken
          exact ⟨rfl,rfl⟩
        · split at taken
          · cases taken
            exact ⟨rfl,rfl⟩
          · split at taken
            · cases taken
              exact ⟨rfl,rfl⟩
            · cases taken
              exact ⟨rfl,rfl⟩

theorem network_chans (blocks : List (Entry × Forest Entry)) {cfg cfg' : Config κ}
    (taken : blocks.foldlM (networkOption features) (cfg,net) = some (cfg',net')) :
    cfg'.networks = cfg.networks ∧ net'.chans = net.chans ++ blocks.filterMap channelOf ∧
      ∀ chan ∈ blocks.filterMap channelOf, ∃ name, chan.name = some name := by
  induction blocks generalizing cfg net with
  | nil =>
      cases taken
      exact ⟨rfl,by simp,by simp⟩
  | cons block rest ih =>
      rw [List.foldlM_cons] at taken
      obtain ⟨⟨cfg1,net1⟩,first,taken⟩ := Option.bind_eq_some_iff.mp taken
      obtain ⟨kept,one,named⟩ := networkOption_chans first
      obtain ⟨keeps,more,others⟩ := ih taken
      refine ⟨keeps.trans kept,?_,?_⟩
      · rw [more,one,List.append_assoc]
        cases made : channelOf block <;> simp [made]
      · intro chan member
        obtain ⟨other,inside,made⟩ := List.mem_filterMap.mp member
        rcases List.mem_cons.mp inside with rfl | later
        · exact named chan made
        · exact others chan (List.mem_filterMap.mpr ⟨other,later,made⟩)

theorem globalOption_networks {cfg cfg' : Config κ} (taken : globalOption cfg search = some cfg') : cfg'.networks = cfg.networks := by
  obtain ⟨key,-,taken⟩ := Option.bind_eq_some_iff.mp taken
  split at taken
  · obtain ⟨value,-,taken⟩ := Option.bind_eq_some_iff.mp taken
    cases taken
    rfl
  · split at taken
    · cases taken
      rfl
    · split at taken
      · obtain ⟨value,-,taken⟩ := Option.bind_eq_some_iff.mp taken
        cases taken
        rfl
      · repeat' split at taken
        all_goals
          cases taken
          rfl

theorem global_networks (row : List Entry) {cfg cfg' : Config κ} (taken : row.foldlM globalOption cfg = some cfg') :
    cfg'.networks = cfg.networks := by
  induction row generalizing cfg with
  | nil =>
      cases taken
      rfl
  | cons e rest ih =>
      rw [List.foldlM_cons] at taken
      obtain ⟨middle,first,taken⟩ := Option.bind_eq_some_iff.mp taken
      exact (ih taken).trans (globalOption_networks first)

-- The channels of a network block.
def channelsOf (block : Entry × Forest Entry) : List Channel := block.2.blocks.filterMap channelOf

theorem topBlock_chans {cfg cfg' : Config κ} (taken : topBlock features cfg block = some cfg') :
    (cfg'.networks = cfg.networks ∧ isNetwork block.1 = false) ∨
      isNetwork block.1 = true ∧ ∃ net, cfg'.networks = cfg.networks ++ [net] ∧ net.chans = channelsOf block ∧
        ∀ chan ∈ net.chans, ∃ name, chan.name = some name := by
  obtain ⟨key,keyed,taken⟩ := Option.bind_eq_some_iff.mp taken
  have kind : isNetwork block.1 = decide (key = "network".toList) := by
    exact Bool.eq_iff_iff.mpr (by simp only [isNetwork,keyed,beq_iff_eq,Option.some.injEq,decide_eq_true_eq])
  split at taken
  · rename_i global
    have other : isNetwork block.1 = false := by
      rw [kind,global]
      decide
    obtain ⟨value,-,taken⟩ := Option.bind_eq_some_iff.mp taken
    split at taken
    · exact .inl ⟨global_networks _ taken,other⟩
    · cases taken
      exact .inl ⟨rfl,other⟩
  · split at taken
    · rename_i network
      obtain ⟨⟨cfg1,net⟩,read,taken⟩ := Option.bind_eq_some_iff.mp taken
      cases taken
      obtain ⟨kept,chans,named⟩ := network_chans _ read
      refine .inr ⟨by rw [kind]; exact decide_eq_true network,net,by rw [kept],chans,?_⟩
      rw [chans]
      exact named
    · rename_i network
      cases taken
      exact .inl ⟨rfl,by rw [kind]; exact decide_eq_false network⟩

-- The channels of the networks are those of the network blocks, and each has a name.
theorem load_chans (tcfg : Forest Entry) {cfg : Config κ} (loaded : configEngineLoad features tcfg = some cfg) :
    cfg.networks.map Network.chans = (ofKind isNetwork tcfg.blocks).map channelsOf ∧
      ∀ net ∈ cfg.networks, ∀ chan ∈ net.chans, ∃ name, chan.name = some name := by
  have all : ∀ (blocks : List (Entry × Forest Entry)) (before after : Config κ), blocks.foldlM (topBlock features) before = some after →
      after.networks.map Network.chans = before.networks.map Network.chans ++ (ofKind isNetwork blocks).map channelsOf ∧
        ((∀ net ∈ before.networks, ∀ chan ∈ net.chans, ∃ name, chan.name = some name) →
          ∀ net ∈ after.networks, ∀ chan ∈ net.chans, ∃ name, chan.name = some name) := by
    intro blocks
    induction blocks with
    | nil =>
        rintro before after ⟨⟩
        exact ⟨by simp [ofKind],id⟩
    | cons block rest ih =>
        intro before after taken
        rw [List.foldlM_cons] at taken
        obtain ⟨middle,first,taken⟩ := Option.bind_eq_some_iff.mp taken
        obtain ⟨more,later⟩ := ih middle after taken
        rcases topBlock_chans first with ⟨kept,other⟩ | ⟨network,net,added,chans,named⟩
        · refine ⟨?_,fun start => later (by rw [kept]; exact start)⟩
          rw [more,kept]
          simp [ofKind,other]
        · refine ⟨?_,fun start => later ?_⟩
          · rw [more,added]
            simp [ofKind,network,chans]
          · intro other member
            rw [added] at member
            rcases List.mem_append.mp member with old | new
            · exact start other old
            · rw [List.mem_singleton.mp new]
              exact named
  obtain ⟨same,named⟩ := all tcfg.blocks emptyConfig cfg loaded
  exact ⟨by simpa [emptyConfig] using same,named (by simp [emptyConfig])⟩

end

theorem find_name {text : α → Option Str} {l : List α} (named : none ∉ l.map text) (name : Str) :
    Irc.findPlace (fun x => Irc.sameText (text x) (some name)) l = some (l.findIdx? (fun x => (text x).map fold = some (fold name))) := by
  refine Irc.findPlace_total ?_
  intro x member
  refine Irc.sameText_total ?_ name
  intro none'
  exact named (List.mem_map.mpr ⟨x,member,none'⟩)

theorem distinct_add {names : List (Option Str)} (distinct : Distinct names) (new : some (fold name) ∉ names.map (fun name => name.map fold)) :
    Distinct (names ++ [some name]) := by
  refine ⟨by simpa using distinct.1,?_⟩
  rw [List.map_append,List.nodup_append]
  refine ⟨distinct.2,by simp,?_⟩
  rintro x old y member rfl
  rw [List.map_singleton,List.mem_singleton] at member
  rw [member] at old
  exact new old

theorem distinct_front {names : List (Option Str)} (front : first <+: names) (distinct : Distinct names) : Distinct first :=
  ⟨fun none' => distinct.1 (front.subset none'),(front.map _).sublist.nodup distinct.2⟩

theorem chanInit_front (chans : List Channel) (blocks : List (Entry × Forest Entry)) (done : chanInit chans blocks = some after) :
    chans <+: after := by
  induction blocks generalizing chans with
  | nil =>
      cases done
      exact List.prefix_refl _
  | cons block rest ih =>
      rw [chanInit] at done
      split at done
      · cases done
        exact List.prefix_refl _
      · split at done
        · obtain ⟨made,-,done⟩ := Option.bind_eq_some_iff.mp done
          split at done
          · exact ih chans done
          · obtain ⟨found,-,done⟩ := Option.bind_eq_some_iff.mp done
            split at done
            · exact ih chans done
            · exact (List.prefix_append _ _).trans (ih _ done)
        · exact ih chans done

theorem chanInit_distinct (chans : List Channel) (blocks : List (Entry × Forest Entry)) (done : chanInit chans blocks = some after)
    (distinct : Distinct (chans.map Channel.name)) : Distinct (after.map Channel.name) := by
  induction blocks generalizing chans with
  | nil =>
      cases done
      exact distinct
  | cons block rest ih =>
      rw [chanInit] at done
      split at done
      · cases done
        exact distinct
      · split at done
        · obtain ⟨made,read,done⟩ := Option.bind_eq_some_iff.mp done
          split at done
          · exact ih chans done distinct
          · rename_i chan
            obtain ⟨name,named⟩ := made_named read
            obtain ⟨found,searched,done⟩ := Option.bind_eq_some_iff.mp done
            split at done
            · exact ih chans done distinct
            · refine ih _ done ?_
              rw [named,find_name distinct.1,Option.some.injEq,List.findIdx?_eq_none_iff] at searched
              rw [List.map_append,List.map_singleton,named]
              refine distinct_add distinct ?_
              rw [List.map_map]
              intro member
              obtain ⟨other,inside,same⟩ := List.mem_map.mp member
              exact absurd (searched other inside) (by simpa using same)
        · exact ih chans done distinct

end Trollbot.ConfigEngine

namespace Trollbot.Irc
open CBuffer IrcParse Runs ConfigEngine

-- The records that the loaders make.
def recordsOf (chans : List ConfigEngine.Channel) : List Channel := chans.map (fun chan => { newChannel [] with name := chan.name })

def names (chans : List Channel) : List (Option Str) := chans.map Channel.name

-- A 470 that forwards a channel to another one.
def Forwards (msg : Message) (a b : Str) : Prop :=
  msg.command = "470".toList ∧ (∃ nick text, params msg = [nick,a,b,text]) ∧ fold a ≠ fold b

-- The messages with all their parameters.
def Spoken (msg : Message) : Prop := msg.Readable ∧ (msg.command = "353".toList ∧ (params msg).length = 4 ∨ ∃ a b, Forwards msg a b)

def hear (scripts : Nat → Network → IrcData → Result) (net : Network) (msg : Message) : Option Network :=
  (parseIrcLine scripts net msg.render).map Prod.fst

-- No record is named `a`, and the others are as they were.
def Forwarded (a : Str) (before after : List Channel) : Prop :=
  (∀ chan ∈ after, chan.key ≠ some (fold a)) ∧ ∀ (i : Nat) (chan : Channel), before[i]? = some chan → chan.key ≠ some (fold a) → after[i]? = some chan

def NamesKept (before : Network) (msg : Message) (after : Network) : Prop :=
  Distinct (names after.chans) ∧ ∀ a b, Forwards msg a b → Forwarded a before.chans after.chans

-- A forwarding about no record, where the handler looks for the new name and takes the parameter after it.
def Unrecorded (before : Network) (msg : Message) : Prop :=
  ∀ a b, Forwards msg a b → ∀ chan ∈ before.chans, chan.key ≠ some (fold a) ∧ (chan.key = some (fold b) → chan.name = msg.middles[3]?)

def Default (net : Network) : Prop := (net.trigs .raw).items.map triggerKey = defaultRaw.map triggerKey

section
variable {scripts : Nat → Network → IrcData → Result} {net : Network} {data : IrcData}

-- One of the numerics runs its handler, and no other.
theorem numeric_ran (scripts : Nat → Network → IrcData → Result) (before after : List (Str × Option Handler)) (default' : Default net) (readable : Message.Readable msg) (is : msg.command = "353".toList ∨ msg.command = "470".toList)
    (bound : defaultRaw.map triggerKey = before ++ (msg.command,some handler) :: after)
    (others : ∀ key ∈ before ++ after, key.1 ≠ msg.command) :
    ∃ data, Readout net.nick msg data ∧ parseIrcLine scripts net msg.render = runHandler scripts net data .raw (0 + before.length) handler := by
  obtain ⟨data,read,out⟩ := decode_readout net.nick msg readable
  refine ⟨data,out,?_⟩
  rw [← out.command] at is bound others
  have ping : data.command ≠ "PING".toList ∧ data.command ≠ "302".toList := by
    rcases is with is | is
    · rw [is]
      decide
    · rw [is]
      decide
  have matched : triggerMatch scripts net data = eachRaw scripts data 0 (net.trigs .raw).items net := by
    unfold triggerMatch
    rcases is with is | is
    · rw [is]
      rfl
    · rw [is]
      rfl
  simp only [parseIrcLine,read,Option.bind_eq_bind,Option.bind_some]
  rw [dispatch_other rfl ping.1 ping.2,matched]
  exact raw_single 0 before _ (default'.trans bound) others net

theorem populateUser_name (done : populateUser chan ptr = some later) : later.name = chan.name := by
  obtain ⟨found,-,done⟩ := Option.bind_eq_some_iff.mp done
  cases done
  cases found <;> rfl

theorem populate_name (users : List Str) (done : users.foldlM populateUser chan = some later) : later.name = chan.name := by
  induction users generalizing chan with
  | nil =>
      cases done
      rfl
  | cons ptr rest ih =>
      rw [List.foldlM_cons] at done
      obtain ⟨middle,first,done⟩ := Option.bind_eq_some_iff.mp done
      exact (ih done).trans (populateUser_name first)

theorem names_replaced {chans : List Channel} (here : chans[place]? = some chan) (same : later.name = chan.name) :
    names (chans.modify place (fun _ => later)) = names chans := by
  have given : (names chans)[place]? = some later.name := by simp [names,here,same]
  have put : names (chans.modify place (fun _ => later)) = (names chans).set place later.name :=
    map_replace (fun _ => rfl) chans place
  obtain ⟨inside,at'⟩ := List.getElem?_eq_some_iff.mp given
  rw [put,← at',List.set_getElem_self]

-- A names reply adds no name but that of a channel without a record.
theorem populate_names (distinct : Distinct (names net.chans)) (told : slot data.cParams 2 = some (some name))
    (done : channelListPopulate net data = some (later,out)) : Distinct (names later.chans) := by
  unfold channelListPopulate at done
  split at done
  · cases done
  · rw [told,Option.bind_eq_bind,Option.bind_some] at done
    obtain ⟨found,searched,done⟩ := Option.bind_eq_some_iff.mp done
    dsimp only at done
    split at done
    all_goals
      obtain ⟨⟨changed,place⟩,made,done⟩ := Option.bind_eq_some_iff.mp done
      obtain ⟨chan,here,done⟩ := Option.bind_eq_some_iff.mp done
      obtain ⟨users,-,done⟩ := Option.bind_eq_some_iff.mp done
      obtain ⟨filled,ran,done⟩ := Option.bind_eq_some_iff.mp done
      cases done
      have same : names (changed.modifyChan place (fun _ => filled)).chans = names changed.chans :=
        names_replaced here (populate_name users ran)
      rw [same]
      cases made
    · exact distinct
    · have absent : net.chans.findIdx? (fun chan => chan.name.map fold = some (fold name)) = none :=
        Option.some.inj ((find_name distinct.1 name).symm.trans searched)
      have added : names (net.chans ++ [newChannel name]) = names net.chans ++ [some name] := by simp [names,newChannel]
      rw [added]
      refine distinct_add distinct ?_
      rw [names,List.map_map]
      intro member
      obtain ⟨other,inside,same⟩ := List.mem_map.mp member
      exact absurd (List.findIdx?_eq_none_iff.mp absent other inside) (by simpa using same)

theorem slot_upto {slots : Slots} (reads : words slots = some found) (within : i ≤ found.length) : slot (some slots) i = some found[i]? := by
  rcases Nat.lt_or_eq_of_le within with inside | rfl
  · rw [List.getElem?_eq_getElem inside]
    exact slot_word reads (List.getElem?_eq_getElem inside)
  · rw [List.getElem?_eq_none (Nat.le_refl _)]
    exact slot_end reads

theorem middles_length {n : Nat} (counted : (params msg).length = n + 1) : n ≤ msg.middles.length := by
  have short : msg.trailing.toList.length ≤ 1 := by cases msg.trailing <;> simp
  rw [params,List.length_append] at counted
  omega

theorem handler_default (default' : Default net) {handler : Handler} (ran : runHandler scripts net data type place handler = some (later,out))
    (keeps : ∀ (changed : Network) sent, effect scripts handler (countUse net type place) data = some (changed,sent) →
      SameNicks (countUse net type place) changed) :
    ∃ sent, effect scripts handler (countUse net type place) data = some (later,sent) ∧ Default later := by
  obtain ⟨⟨changed,sent⟩,done,ran⟩ := Option.bind_eq_some_iff.mp ran
  cases ran
  have kept := (count_keeps net type place).trans (keeps later sent done)
  exact ⟨sent,done,(kept.trigs .raw).trans default'⟩

theorem names_step (default' : Default net) (distinct : Distinct (names net.chans)) (readable : Message.Readable msg)
    (command : msg.command = "353".toList) (counted : (params msg).length = 4) (heard : hear scripts net msg = some later) :
    Default later ∧ Distinct (names later.chans) := by
  obtain ⟨data,out,ran⟩ := numeric_ran scripts ((defaultRaw.take 1).map triggerKey) ((defaultRaw.drop 2).map triggerKey) default' readable
    (.inl command) (by rw [command]; rfl) (by rw [command]; decide)
  obtain ⟨⟨net',sent⟩,parsed,same⟩ := Option.map_eq_some_iff.mp heard
  cases same
  rw [ran] at parsed
  obtain ⟨sent',done,kept⟩ := handler_default default' parsed (fun _ _ => channelListPopulate_keeps)
  have long := middles_length counted
  obtain ⟨slots,cParams,reads⟩ := out.params (by intro none'; simp [none'] at long)
  have told : slot data.cParams 2 = some (some msg.middles[2]) := by
    rw [cParams]
    exact slot_word reads (List.getElem?_eq_getElem (by omega))
  have before : Distinct (names (countUse net .raw (0 + ((defaultRaw.take 1).map triggerKey).length)).chans) := distinct
  exact ⟨kept,populate_names before told done⟩

-- What a forwarding does: the record of the channel forwarded to gets the parameter after it for a name.
theorem forward_step (default' : Default net) (distinct : Distinct (names net.chans)) (readable : Message.Readable msg)
    (forwards : Forwards msg a b) (heard : hear scripts net msg = some later) : Default later ∧
      ((∀ chan ∈ net.chans, chan.key ≠ some (fold b)) ∧ later.chans = net.chans ∨
        ∃ place chan, net.chans[place]? = some chan ∧ chan.key = some (fold b) ∧
          later.chans = net.chans.modify place (fun _ => { chan with name := msg.middles[3]? })) := by
  obtain ⟨command,⟨nick,text,given⟩,-⟩ := forwards
  obtain ⟨data,out,ran⟩ := numeric_ran scripts ((defaultRaw.take 9).map triggerKey) [] default' readable
    (.inr command) (by rw [command]; rfl) (by rw [command]; decide)
  have counted : (params msg).length = 3 + 1 := by rw [given]; rfl
  have long := middles_length counted
  obtain ⟨slots,cParams,reads⟩ := out.params (by intro none'; simp [none'] at long)
  have named : slot data.cParams 2 = some (some b) := by
    rw [cParams]
    refine slot_word reads ?_
    have here : (params msg)[2]? = some b := by rw [given]; rfl
    rwa [params,List.getElem?_append_left (by omega)] at here
  have new : slot data.cParams 3 = some msg.middles[3]? := by
    rw [cParams]
    exact slot_upto reads long
  generalize 0 + (List.map triggerKey (List.take 9 defaultRaw)).length = place at ran
  have found : networkChannelFind (countUse net .raw place) (some b) = some (net.chans.findIdx? (fun chan => chan.key = some (fold b))) :=
    find_name distinct.1 b
  have counted : Default (countUse net .raw place) := (count_keys .raw .raw place).trans default'
  simp only [hear,ran,runHandler,effect,trollTrigChannelRedirect,named,found,onChannel,Option.bind_eq_bind,Option.bind_some] at heard
  cases at' : net.chans.findIdx? (fun chan => chan.key = some (fold b)) with
  | none =>
      rw [at'] at heard
      cases heard
      refine ⟨counted,.inl ⟨?_,rfl⟩⟩
      intro chan member
      simpa using List.findIdx?_eq_none_iff.mp at' chan member
  | some i =>
      obtain ⟨chan,here,named,-⟩ := Roster.modify_first Channel.key at'
      have here' : (countUse net .raw place).chans[i]? = some chan := here
      simp only [at',here',new,Option.bind_some,Option.map_some] at heard
      cases heard
      exact ⟨counted,.inr ⟨i,chan,here,named,rfl⟩⟩

theorem replaced_same {chans : List Channel} (here : chans[place]? = some chan) : chans.modify place (fun _ => chan) = chans := by
  refine List.ext_getElem? ?_
  intro i
  rw [List.getElem?_modify]
  by_cases same : place = i
  · subst same
    simp [here]
  · simp [same]

-- The claim holds of a message exactly where it is about no record.
theorem kept_exact (default' : Default net) (distinct : Distinct (names net.chans)) (spoken : Spoken msg)
    (heard : hear scripts net msg = some later) : Default later ∧ (NamesKept net msg later ↔ Unrecorded net msg) := by
  obtain ⟨readable,⟨command,counted⟩ | ⟨a,b,forwards⟩⟩ := spoken
  · obtain ⟨kept,still⟩ := names_step default' distinct readable command counted heard
    have other : ∀ a b, ¬Forwards msg a b := by
      rintro a b ⟨is,-⟩
      rw [command] at is
      exact absurd is (by decide)
    exact ⟨kept,fun _ a b forwards => absurd forwards (other a b),fun _ => ⟨still,fun a b forwards => absurd forwards (other a b)⟩⟩
  · obtain ⟨kept,done⟩ := forward_step default' distinct readable forwards heard
    have only : ∀ a' b', Forwards msg a' b' → a' = a ∧ b' = b := by
      rintro a' b' ⟨-,⟨nick',text',given'⟩,-⟩
      obtain ⟨-,⟨nick,text,given⟩,-⟩ := forwards
      rw [given] at given'
      obtain ⟨-,sameA,sameB,-⟩ : nick = nick' ∧ a = a' ∧ b = b' ∧ text = text' := by simpa using given'
      exact ⟨sameA.symm,sameB.symm⟩
    refine ⟨kept,?_⟩
    have still : later.chans = net.chans → (NamesKept net msg later ↔ ∀ chan ∈ net.chans, chan.key ≠ some (fold a)) := by
      intro same
      constructor
      · rintro ⟨-,forwarded⟩
        rw [← same]
        exact (forwarded a b forwards).1
      · intro absent
        refine ⟨by rw [same]; exact distinct,?_⟩
        intro a' b' forwards'
        obtain ⟨rfl,rfl⟩ := only a' b' forwards'
        rw [same]
        exact ⟨absent,fun _ _ here _ => here⟩
    constructor
    · intro names a' b' forwards'
      obtain ⟨rfl,rfl⟩ := only a' b' forwards'
      rcases done with ⟨absent,same⟩ | ⟨place,record,here,named,renamed⟩
      · exact fun chan member => ⟨(still same).mp names chan member,fun found => absurd found (absent chan member)⟩
      · have other : record.key ≠ some (fold a') := by
          rw [named]
          intro met
          exact forwards.2.2 (Option.some.inj met).symm
        have after := (names.2 a' b' forwards).2 place record here other
        have put : later.chans[place]? = some { record with name := msg.middles[3]? } := by
          rw [renamed]
          simp [here]
        have changed := Option.some.inj (after.symm.trans put)
        have unchanged : record.name = msg.middles[3]? := congrArg Channel.name changed
        have same : later.chans = net.chans := by
          rw [renamed,← changed]
          exact replaced_same here
        refine fun chan member => ⟨(still same).mp names chan member,?_⟩
        intro found
        have once : (net.chans.map Channel.key).Nodup := by
          have keys := distinct.2
          rw [Irc.names,List.map_map] at keys
          exact keys
        obtain rfl := List.inj_on_of_nodup_map once member (List.mem_of_getElem? here) (found.trans named.symm)
        exact unchanged
    · intro unrecorded
      have clear := unrecorded a b forwards
      have same : later.chans = net.chans := by
        rcases done with ⟨-,same⟩ | ⟨place,record,here,named,renamed⟩
        · exact same
        · have unchanged := (clear record (List.mem_of_getElem? here)).2 named
          rw [renamed,← unchanged]
          exact replaced_same here
      exact (still same).mpr fun chan member => (clear chan member).1

end

theorem records_names (chans : List ConfigEngine.Channel) : names (recordsOf chans) = chans.map ConfigEngine.Channel.name := by
  simp [names,recordsOf]

theorem along_kept (scripts : Nat → Network → IrcData → Result) (default' : Default net) (distinct : Distinct (names net.chans))
    (spoken : ∀ msg ∈ msgs, Spoken msg) :
    Along (hear scripts) NamesKept net msgs ↔ Along (hear scripts) (fun before msg _ => Unrecorded before msg) net msgs := by
  have start : Default net ∧ Distinct (names net.chans) := ⟨default',distinct⟩
  refine along_exact (fun net : Network => Default net ∧ Distinct (names net.chans)) ?_ ?_ start spoken
  · exact fun net msg next good spoken heard => (kept_exact good.1 good.2 spoken heard).2
  · exact fun net msg next good spoken heard kept => ⟨(kept_exact good.1 good.2 spoken heard).1,kept.1⟩

-- The names stay distinct, and the forwardings change what they should, exactly where no two channel
-- blocks of the network have one name and no forwarding is about a record.
theorem channel_names {κ : Type} (features : Features) (tcfg : Forest Tconfig.Entry) (cfg : Config κ) (loaded : configEngineLoad features tcfg = some cfg)
    (i : Nat) (block : Tconfig.Entry × Forest Tconfig.Entry) (here : (ofKind isNetwork tcfg.blocks)[i]? = some block)
    (conf : ConfigEngine.Network) (there : cfg.networks[i]? = some conf)
    (chanfile : List (Tconfig.Entry × Forest Tconfig.Entry)) (chans : List ConfigEngine.Channel) (init : chanInit conf.chans chanfile = some chans)
    (scripts : Nat → Network → IrcData → Result) (net : Network) (default' : Default net) (records : net.chans = recordsOf chans)
    (msgs : List Message) (spoken : ∀ msg ∈ msgs, Spoken msg) :
    Distinct (names net.chans) ∧ Along (hear scripts) NamesKept net msgs ↔
      ((channelsOf block).map (fun chan => chan.name.map fold)).Nodup ∧
        Along (hear scripts) (fun before msg _ => Unrecorded before msg) net msgs := by
  obtain ⟨same,named⟩ := load_chans tcfg loaded
  have configured : conf.chans = channelsOf block := by
    have at' := congrArg (fun list => list[i]?) same
    simpa [here,there] using at'
  have known : none ∉ conf.chans.map ConfigEngine.Channel.name := by
    intro member
    obtain ⟨chan,inside,missing⟩ := List.mem_map.mp member
    obtain ⟨name,is⟩ := named conf (List.mem_of_getElem? there) chan inside
    rw [missing] at is
    cases is
  have start : Distinct (names net.chans) ↔ ((channelsOf block).map (fun chan => chan.name.map fold)).Nodup := by
    rw [← configured,records,records_names]
    constructor
    · intro distinct
      have first := (distinct_front ((chanInit_front _ _ init).map _) distinct).2
      rwa [List.map_map] at first
    · intro once
      exact chanInit_distinct _ _ init ⟨known,by rw [List.map_map]; exact once⟩
  rw [← start]
  exact and_congr_right fun distinct => along_kept scripts default' distinct spoken

def plainFeatures : Features := ⟨false,false,false,false⟩

-- One network with one channel, which has a setting.
def homeTree : Forest Tconfig.Entry :=
  .one ⟨some "network".toList,some "home".toList⟩
    (.one ⟨some "channel".toList,some "##e".toList⟩ (.one ⟨some "greet".toList,some "on".toList⟩ .nil))

def homeConfig : Config Unit := (configEngineLoad plainFeatures homeTree).getD emptyConfig

def homeChannel : ConfigEngine.Channel := ⟨some "##e".toList,[⟨some "greet".toList,some "on".toList⟩]⟩

def homeNetwork : Network := { startNetwork with chans := recordsOf [homeChannel] }

-- A forwarding from a channel to another, and a names reply.
def forwarding (a b : Str) : Message :=
  ⟨some (.server "irc".toList),"470".toList,["bot".toList,a,b],some "Forwarding to another channel".toList⟩

def namesOf (chan : Str) : Message := ⟨some (.server "irc".toList),"353".toList,["bot".toList,"=".toList,chan],some "bot".toList⟩

theorem home_loads : configEngineLoad plainFeatures homeTree = some homeConfig := by
  have loads : (configEngineLoad plainFeatures homeTree : Option (Config Unit)).isSome = true := by decide +kernel
  obtain ⟨cfg,is⟩ := Option.isSome_iff_exists.mp loads
  rw [homeConfig,is]
  rfl

theorem home_network : ∃ conf, homeConfig.networks[0]? = some conf ∧ conf.chans = [homeChannel] := by
  have same := (load_chans homeTree home_loads).1
  have chans : (ofKind isNetwork homeTree.blocks).map channelsOf = [[homeChannel]] := by decide +kernel
  rw [chans] at same
  obtain ⟨conf,one,is⟩ := List.map_eq_singleton_iff.mp same
  exact ⟨conf,by rw [one]; rfl,is⟩

theorem server_origin : ∀ origin : Origin, some (Origin.server "irc".toList) = some origin → origin.WellFormed ∧ ' ' ∉ origin.text := by
  rintro _ ⟨⟩
  exact ⟨show '!' ∉ "irc".toList by decide,by decide⟩

theorem forwarding_forwards (differ : fold a ≠ fold b) : Forwards (forwarding a b) a b := ⟨rfl,⟨_,_,rfl⟩,differ⟩

theorem forwarding_readable : ∀ chans ∈ [("#a".toList,"#b".toList),("#e".toList,"##e".toList)], (forwarding chans.1 chans.2).Readable := by
  intro chans member
  refine ⟨server_origin,show Word "470".toList by unfold Word; decide,?_,.inr (by simp [forwarding]),?_⟩
  · unfold Word
    revert chans
    decide
  · revert chans
    decide

theorem namesOf_spoken : Spoken (namesOf "#b".toList) :=
  ⟨⟨server_origin,by unfold Word; decide,by unfold Word; decide,by decide,by decide⟩,.inl ⟨rfl,rfl⟩⟩

theorem home_names : Distinct (names homeNetwork.chans) ∧
    Along (hear noScripts) NamesKept homeNetwork [forwarding "#a".toList "#b".toList,namesOf "#b".toList] := by
  obtain ⟨conf,there,chans⟩ := home_network
  refine (channel_names plainFeatures homeTree homeConfig home_loads 0 _ rfl conf there [] [homeChannel] (by rw [chans]; rfl) noScripts
    homeNetwork rfl rfl _ ?_).mpr ⟨by decide +kernel,?_⟩
  · intro msg member
    rcases List.mem_pair.mp member with rfl | rfl
    · exact ⟨forwarding_readable ("#a".toList,"#b".toList) (by decide),.inr ⟨_,_,forwarding_forwards (by decide)⟩⟩
    · exact namesOf_spoken
  · intro next _
    refine ⟨?_,fun last _ => ⟨?_,trivial⟩⟩
    · rintro a b ⟨-,⟨nick,text,given⟩,-⟩ chan member
      obtain ⟨-,rfl,rfl,-⟩ : "bot".toList = nick ∧ "#a".toList = a ∧ "#b".toList = b ∧ _ := by simpa [params,forwarding] using given
      obtain rfl := List.mem_singleton.mp member
      exact ⟨by decide,fun found => absurd found (by decide)⟩
    · rintro a b ⟨command,-⟩
      exact absurd command (by decide)

-- A forwarding to a channel that the bot is on takes its record's name away.
theorem forwarded_name_lost : ¬∀ (features : Features) (tcfg : Forest Tconfig.Entry) (cfg : Config Unit), configEngineLoad features tcfg = some cfg →
    ∀ (i : Nat) (conf : ConfigEngine.Network), cfg.networks[i]? = some conf →
    ∀ (chanfile : List (Tconfig.Entry × Forest Tconfig.Entry)) (chans : List ConfigEngine.Channel), chanInit conf.chans chanfile = some chans →
    ∀ (scripts : Nat → Network → IrcData → Result) (net : Network), Default net → net.chans = recordsOf chans →
    ∀ msgs : List Message, (∀ msg ∈ msgs, Spoken msg) → Distinct (names net.chans) ∧ Along (hear scripts) NamesKept net msgs := by
  intro all
  obtain ⟨conf,there,chans⟩ := home_network
  have spoken : Spoken (forwarding "#e".toList "##e".toList) :=
    ⟨forwarding_readable ("#e".toList,"##e".toList) (by decide),.inr ⟨_,_,forwarding_forwards (by decide)⟩⟩
  obtain ⟨distinct,along⟩ := all plainFeatures homeTree homeConfig home_loads 0 conf there [] [homeChannel] (by rw [chans]; rfl) noScripts
    homeNetwork rfl rfl [forwarding "#e".toList "##e".toList] (fun msg member => List.mem_singleton.mp member ▸ spoken)
  have heard : (hear noScripts homeNetwork (forwarding "#e".toList "##e".toList)).map (fun net => names net.chans) = some [none] := by
    decide +kernel
  obtain ⟨later,taken,lost⟩ := Option.map_eq_some_iff.mp heard
  obtain ⟨⟨⟨named,-⟩,-⟩,-⟩ := along later taken
  rw [lost] at named
  exact named (by simp)

end Trollbot.Irc
