import Trollbot.Foundation.Rounds
import Trollbot.Tracking
import Mathlib.Data.List.TakeWhile

-- What a message makes the triggers of a stackable type do.
namespace Trollbot.Irc
open IrcParse
open Rounds (findIdxs_same)

def parameters (msg : Message) : List Str := msg.middles ++ msg.trailing.toList

-- The text after the colon, where there is any.
def said (msg : Message) : Option Str := msg.trailing.filter (fun text => text ≠ [])

-- The events of the documentation, and the text their masks are matched against. A signoff has one
-- text for each channel.
inductive IsEvent (net : Network) : TrigType → Message → Str → Prop where
  | msgm (is : msg.command = "PRIVMSG".toList) (words : parameters msg = [target,text]) (bot : net.botnick = some nick)
      (own : tstrcasecmp target nick = 0) : IsEvent net .msgm msg text
  | pubm (is : msg.command = "PRIVMSG".toList) (words : parameters msg = [chan,text]) (bot : net.botnick = some nick)
      (away : tstrcasecmp chan nick ≠ 0) : IsEvent net .pubm msg (chan ++ ' ' :: text)
  | notc (is : msg.command = "NOTICE".toList) (words : parameters msg = [dest,text])
      (origin : msg.origin = some (Who.origin who)) : IsEvent net .notc msg text
  | join (is : msg.command = "JOIN".toList) (words : parameters msg = [chan]) (word : Word chan)
      (origin : msg.origin = some (Who.origin who)) : IsEvent net .join msg (chan ++ ' ' :: who.origin.text)
  | part (is : msg.command = "PART".toList) (words : parameters msg = chan :: Option.toList reason)
      (origin : msg.origin = some (Who.origin who)) : IsEvent net .part msg (chan ++ ' ' :: who.origin.text)
  | sign (is : msg.command = "QUIT".toList) (words : parameters msg = [reason]) (origin : msg.origin = some (Who.origin who))
      (chan : Channel) (recorded : chan ∈ net.chans) (named : chan.name = some name) (on : chan.place who.nick ≠ none) :
      IsEvent net .sign msg (name ++ ' ' :: who.origin.text)
  | topc (is : msg.command = "TOPIC".toList) (words : parameters msg = [chan,topic])
      (origin : msg.origin = some (Who.origin who)) : IsEvent net .topc msg (chan ++ ' ' :: topic)

-- The places of the triggers that are run, in the order of the calls.
def ran (type : TrigType) (out : List Output) : List Nat :=
  out.filterMap (fun
    | .ran other place => if other = type then some place else none
    | _ => none)

def matching (text : Str) (trigs : List (Trigger Handler)) : List Nat :=
  trigs.findIdxs (fun trig => wildMatch text trig.mask)

def AllRan (net : Network) (type : TrigType) (text : Str) (result : Result) : Prop :=
  ∃ next out, result = some (next,out) ∧ ran type out = matching text (net.trigs type).items

-- The types whose triggers one message reaches together.
def together : TrigType → List TrigType
  | .msgm => [.msg,.msgm]
  | .pubm => [.pub,.pubm]
  | type => [type]

def Reached (net : Network) (type : TrigType) (handler : Handler) : Prop :=
  ∃ kind ∈ together type, ∃ trig ∈ (net.trigs kind).items, trig.handler = some handler

-- The handlers return, run no triggers of their own and bind and unbind nothing while the loop is at
-- work. `Ok` is what they need of the bot.
structure Returning (scripts : Nat → Network → IrcData → Result) (data : IrcData) (bound : Handler → Prop) (Ok : Network → Prop) : Prop where
  counted : ∀ net type place, Ok net → Ok (countUse net type place)
  handled : ∀ net handler, Ok net → bound handler → ∃ next out, effect scripts handler net data = some (next,out) ∧ Ok next ∧
    (∀ type, (next.trigs type).items.map triggerKey = (net.trigs type).items.map triggerKey) ∧ ∀ type, ran type out = []

-- When the code runs what it should.
def Heard (net : Network) (msg : Message) (text : Str) : TrigType → Prop
  | .msgm => said msg ≠ none ∨ ((net.trigs .msg).items = [] ∧ (net.trigs .msgm).items = [])
  | .pubm => ∀ trig ∈ (net.trigs .pubm).items, ∃ words, said msg = some words ∧ wildMatch words trig.mask = wildMatch text trig.mask
  | .notc => said msg ≠ none ∨ (net.trigs .notc).items = []
  | .join =>
    if said msg = none then ∀ trig ∈ (net.trigs .join).items, wildMatch text trig.mask = false
    else ∃ trig rest, (net.trigs .join).items = trig :: rest ∧ wildMatch (newmask text) trig.mask = wildMatch text trig.mask ∧
      ∀ other ∈ rest, wildMatch text other.mask = false
  | .part => ∀ trig ∈ (net.trigs .part).items, wildMatch text trig.mask = (said msg).any (fun words =>
      wildMatch (newmask (words.takeWhile (fun c => c ≠ ' ') ++ ' ' :: msg.origin.elim [] Origin.text)) trig.mask)
  | .topc => ∀ trig ∈ (net.trigs .topc).items, wildMatch text trig.mask = (said msg).any (fun _ => wildMatch (newmask text) trig.mask)
  | .sign => ∀ trig ∈ (net.trigs .sign).items, wildMatch text trig.mask = false
  | _ => True

theorem head_only {p : α → Bool} {x : α} : (if found then [0] else []) = (x :: rest).findIdxs p ↔ found = p x ∧ ∀ y ∈ rest, p y = false := by
  rw [List.findIdxs_cons]
  cases found with
  | false =>
      cases here : p x with
      | false => simpa using eq_comm.trans (List.findIdxs_eq_nil_iff (p := p) (s := 1))
      | true => simp
  | true =>
      cases here : p x with
      | false =>
          simp only [if_true,Bool.false_eq_true,if_false,Bool.true_eq_false,false_and,iff_false]
          intro same
          have later := List.ge_of_mem_findIdxs 0 (same ▸ List.mem_singleton.mpr rfl : 0 ∈ rest.findIdxs p (0 + 1))
          omega
      | true => simpa using eq_comm.trans (List.findIdxs_eq_nil_iff (p := p) (s := 1))

theorem matching_keys (same : trigs.map triggerKey = later.map triggerKey) : matching text trigs = matching text later := by
  have split : ∀ l : List (Trigger Handler), matching text l = (l.map triggerKey).findIdxs (fun key => wildMatch text key.1) :=
    fun l => (List.findIdxs_map (f := triggerKey) (p := fun key => wildMatch text key.1)).symm
  rw [split,split,same]

theorem forall_keys {P : Str × Option Handler → Prop} {trigs later : List (Trigger Handler)}
    (same : trigs.map triggerKey = later.map triggerKey) : (∀ trig ∈ trigs, P (triggerKey trig)) ↔ ∀ trig ∈ later, P (triggerKey trig) := by
  rw [← List.forall_mem_map,same,List.forall_mem_map]

@[simp] theorem ran_nil : ran type [] = [] := rfl

theorem ran_append : ran type (first ++ second) = ran type first ++ ran type second := List.filterMap_append

section
variable {scripts : Nat → Network → IrcData → Result}

theorem each_total (ran : eachTrigger scripts data type hit place trigs net = some result) : ∀ trig ∈ trigs, hit trig ≠ none := by
  induction trigs generalizing place net result with
  | nil => simp
  | cons trig rest ih =>
      simp only [eachTrigger,Option.bind_eq_bind,Option.bind_eq_some_iff] at ran
      obtain ⟨found,hits,ran⟩ := ran
      obtain ⟨middle,out,later,more,-,second,-⟩ := andThen_runs.mp ran
      intro other member
      rcases List.mem_cons.mp member with rfl | inside
      · simp [hits]
      · exact ih second other inside

end

section
variable {scripts : Nat → Network → IrcData → Result} {data : IrcData} {bound : Handler → Prop} {Ok : Network → Prop}
variable (returning : Returning scripts data bound Ok)
include returning

theorem try_runs (type : TrigType) (place : Nat) (found : Bool) (ok : Ok net) (bounds : ∀ handler, trig.handler = some handler → bound handler) :
    ∃ next out, tryTrigger scripts net data type place trig found = some (next,out) ∧ Ok next ∧
      (∀ kind, (next.trigs kind).items.map triggerKey = (net.trigs kind).items.map triggerKey) ∧
      (∀ kind ≠ type, ran kind out = []) ∧ ran type out = if found && trig.handler.isSome then [place] else [] := by
  cases found with
  | false => exact ⟨net,[],rfl,ok,fun _ => rfl,fun _ _ => rfl,rfl⟩
  | true =>
      cases handler : trig.handler with
      | none => exact ⟨net,[],by simp [tryTrigger,runTrigger,handler],ok,fun _ => rfl,fun _ _ => rfl,rfl⟩
      | some handler' =>
          obtain ⟨next,out,done,fine,same,quiet⟩ := returning.handled _ handler' (returning.counted net type place ok) (bounds _ handler)
          refine ⟨next,.ran type place :: out,by simp [tryTrigger,runTrigger,handler,runHandler,done],fine,?_,?_,?_⟩
          · intro kind
            rw [same kind]
            unfold countUse
            dsimp only
            split
            · rw [Chain.modify_items]
              exact map_modify (g := triggerKey) (f := fun trig => { trig with usecount := trig.usecount + 1 }) (fun _ => rfl) _ _
            · rfl
          · intro kind differ
            simpa [ran,Ne.symm differ] using quiet kind
          · simpa [ran] using quiet type

theorem each_runs (type : TrigType) (place : Nat) (ok : Ok net) (tested : ∀ trig ∈ trigs, hit trig ≠ none)
    (bounds : ∀ trig ∈ trigs, ∀ handler, trig.handler = some handler → bound handler) :
    ∃ next out, eachTrigger scripts data type hit place trigs net = some (next,out) ∧ Ok next ∧
      (∀ kind, (next.trigs kind).items.map triggerKey = (net.trigs kind).items.map triggerKey) ∧
      (∀ kind ≠ type, ran kind out = []) ∧
      ran type out = trigs.findIdxs (fun trig => decide (hit trig = some true) && trig.handler.isSome) place := by
  induction trigs generalizing place net with
  | nil => exact ⟨net,[],rfl,ok,fun _ => rfl,fun _ _ => rfl,rfl⟩
  | cons trig rest ih =>
      obtain ⟨found,hits⟩ := Option.ne_none_iff_exists'.mp (tested trig (by simp))
      obtain ⟨middle,out,first,fine,same,others,fires⟩ := try_runs returning type place found ok (bounds trig (by simp))
      obtain ⟨next,more,second,fine',same',others',fires'⟩ := ih (place + 1) fine (fun trig member => tested trig (by simp [member]))
        (fun trig member => bounds trig (by simp [member]))
      refine ⟨next,out ++ more,?_,fine',fun kind => (same' kind).trans (same kind),?_,?_⟩
      · simp only [eachTrigger,hits,Option.bind_eq_bind,Option.bind_some]
        exact andThen_runs.mpr ⟨middle,out,next,more,first,second,rfl⟩
      · intro kind differ
        rw [ran_append,others kind differ,others' kind differ,List.append_nil]
      · rw [ran_append,fires,fires',List.findIdxs_cons,hits]
        cases found <;> cases trig.handler.isSome <;> simp

-- The loop runs the triggers of a text exactly when its test tells them.
theorem each_fires (hit : Trigger Handler → Option Bool) (text : Str) (ok : Ok net) (bounds : ∀ trig ∈ (net.trigs type).items, ∀ handler, trig.handler = some handler → bound handler)
    (handled : ∀ trig ∈ (net.trigs type).items, trig.handler ≠ none) :
    AllRan net type text (allTriggers scripts net data type hit) ↔
      ∀ trig ∈ (net.trigs type).items, hit trig = some (wildMatch text trig.mask) := by
  unfold allTriggers AllRan matching
  constructor
  · rintro ⟨next,out,done,order⟩ trig member
    have tested := each_total done
    obtain ⟨next',out',again,-,-,-,fires⟩ := each_runs returning type 0 ok tested bounds
    rw [done] at again
    cases again
    have same := findIdxs_same.mp (fires.symm.trans order) trig member
    have some' := Option.isSome_iff_ne_none.mpr (handled trig member)
    obtain ⟨found,hits⟩ := Option.ne_none_iff_exists'.mp (tested trig member)
    rw [hits] at same ⊢
    cases found <;> simp_all
  · intro told
    have tested : ∀ trig ∈ (net.trigs type).items, hit trig ≠ none := by
      intro trig member
      simp [told trig member]
    obtain ⟨next,out,done,-,-,-,fires⟩ := each_runs returning type 0 ok tested bounds
    refine ⟨next,out,done,?_⟩
    rw [fires]
    refine findIdxs_same.mpr ?_
    intro trig member
    simp [told trig member,Option.isSome_iff_ne_none.mpr (handled trig member)]

-- The loop after others that run no trigger of its type.
theorem then_fires (test : Str → Option Bool) (text : Str) {middle : Network} (ran' : first = some (middle,out)) (fine : Ok middle)
    (same : ∀ kind, (middle.trigs kind).items.map triggerKey = (net.trigs kind).items.map triggerKey) (quiet : ran type out = [])
    (bounds : ∀ trig ∈ (net.trigs type).items, ∀ handler, trig.handler = some handler → bound handler)
    (handled : ∀ trig ∈ (net.trigs type).items, trig.handler ≠ none) :
    AllRan net type text (andThen first (fun net => allTriggers scripts net data type (fun trig => test trig.mask))) ↔
      ∀ trig ∈ (net.trigs type).items, test trig.mask = some (wildMatch text trig.mask) := by
  have bounds' := (forall_keys (P := fun key => ∀ handler, key.2 = some handler → bound handler) (same type)).mpr bounds
  have handled' := (forall_keys (P := fun key => key.2 ≠ none) (same type)).mpr handled
  refine Iff.trans ?_ ((each_fires returning (fun trig => test trig.mask) text fine bounds' handled').trans
    (forall_keys (P := fun key => test key.1 = some (wildMatch text key.1)) (same type)))
  unfold AllRan
  rw [matching_keys (same type)]
  constructor
  · rintro ⟨next,all,done,order⟩
    obtain ⟨start,before,later,more,first',second,whole⟩ := andThen_runs.mp done
    rw [ran'] at first'
    cases first'
    cases whole
    rw [ran_append,quiet,List.nil_append] at order
    exact ⟨_,more,second,order⟩
  · rintro ⟨next,more,done,order⟩
    refine ⟨next,out ++ more,andThen_runs.mpr ⟨middle,out,next,more,ran',done,rfl⟩,?_⟩
    rw [ran_append,quiet,List.nil_append,order]

theorem pub_runs (ok : Ok net) (bounds : ∀ trig ∈ (net.trigs .pub).items, ∀ handler, trig.handler = some handler → bound handler) :
    ∃ next out, pubTriggers scripts net data = some (next,out) ∧ Ok next ∧
      (∀ kind, (next.trigs kind).items.map triggerKey = (net.trigs kind).items.map triggerKey) ∧ ran .pubm out = [] := by
  unfold pubTriggers
  cases data.restStr with
  | none => exact ⟨net,[],rfl,ok,fun _ => rfl,rfl⟩
  | some str =>
      suffices each : ∀ trigs : List (Trigger Handler), (∀ trig ∈ trigs, ∀ handler, trig.handler = some handler → bound handler) →
          ∀ place, ∃ next out, pubTrigger scripts data str place trigs net = some (next,out) ∧ Ok next ∧
            (∀ kind, (next.trigs kind).items.map triggerKey = (net.trigs kind).items.map triggerKey) ∧ ran .pubm out = [] from
        each _ bounds 0
      intro trigs inside
      induction trigs with
      | nil => exact fun _ => ⟨net,[],rfl,ok,fun _ => rfl,rfl⟩
      | cons trig rest ih =>
          intro place
          unfold pubTrigger
          split
          · obtain ⟨next,out,done,fine,same,quiet,-⟩ := try_runs returning .pub place true ok (inside trig (by simp))
            exact ⟨next,out,done,fine,same,quiet .pubm (by decide)⟩
          · exact ih (fun trig member => inside trig (by simp [member])) (place + 1)

end

-- How the line of an event is read.
section
variable {net : Network} {msg : Message} {data : IrcData}

theorem said_some : said msg = some text ↔ msg.trailing = some text ∧ text ≠ [] := by
  simp [said,Option.filter_eq_some_iff]

theorem said_none : said msg = none ↔ msg.trailing.getD [] = [] := by
  cases trailing : msg.trailing <;> simp [said,trailing]

theorem onRest_said (out : Readout net.nick msg data) (test : Str → Bool) : onRest data test = (said msg).map test := by
  cases spoken : said msg with
  | none =>
      obtain ⟨none',-⟩ := out.silent (said_none.mp spoken)
      simp [onRest,none',slot]
  | some text =>
      obtain ⟨trailing,some'⟩ := said_some.mp spoken
      obtain ⟨str,slots,found,rest,reads,many,-⟩ := out.spoken text trailing some'
      obtain ⟨w,here⟩ := first_word reads many
      simp [onRest,rest,here,str]

theorem decode_first (netNick : Str) (msg : Message) (well : msg.Readable) (trailing : msg.trailing = some text) (some' : text ≠ [])
    (read : decode netNick msg.render = some data) :
    slot data.rest 0 = some (some (text.takeWhile (fun c => c ≠ ' '))) := by
  obtain ⟨params,rest,decoded,-,-,-,readRest,-,spoken⟩ := decode_parts netNick msg well
  obtain ⟨t,found,rfl,-,reads,-,-⟩ := spoken text trailing some'
  have plain : Plain text := by
    intro c inside
    refine (well.clean c ?_).2
    simp [Message.render,trailer,trailing,inside]
  rw [trailing] at readRest
  have first := tokenize_first text some' plain readRest reads
  rw [decoded] at read
  cases read
  obtain ⟨others,same⟩ := List.head?_eq_some_iff.mp first
  exact slot_word (reads.trans (congrArg some same)) rfl

theorem two_words (words : parameters msg = [first,text]) : msg.middles.head? = some first ∧ ∀ other, said msg = some other → other = text := by
  unfold parameters at words
  cases trailing : msg.trailing with
  | none =>
      rw [trailing,Option.toList_none,List.append_nil] at words
      exact ⟨by rw [words]; rfl,by simp [said,trailing]⟩
  | some last =>
      rw [trailing,Option.toList_some] at words
      have split : msg.middles ++ [last] = [first] ++ [text] := words
      obtain ⟨middles,same⟩ := List.append_inj' split rfl
      refine ⟨by rw [middles]; rfl,?_⟩
      intro other spoken
      exact Option.some.inj ((said_some.mp spoken).1.symm.trans (trailing.trans (congrArg some (List.singleton_inj.mp same))))

theorem head_param (out : Readout net.nick msg data) (head : msg.middles.head? = some first) :
    ∃ slots, data.cParams = some slots ∧ slot (some slots) 0 = some (some first) := by
  obtain ⟨rest,whole⟩ := List.head?_eq_some_iff.mp head
  obtain ⟨slots,params,reads⟩ := out.params (by simp [whole])
  exact ⟨slots,params,slot_word reads (by simp [whole])⟩

theorem line_matched (read : decode net.nick msg.render = some data) (out : Readout net.nick msg data) (is : msg.command = command)
    (notPing : command ≠ "PING".toList) (notHost : command ≠ "302".toList) :
    parseIrcLine scripts net msg.render = triggerMatch scripts net data := by
  simp only [parseIrcLine,read,Option.bind_eq_bind,Option.bind_some]
  exact dispatch_other (out.command.trans is) notPing notHost

theorem match_privmsg (is : data.command = "PRIVMSG".toList) : triggerMatch scripts net data = matchPrivmsg scripts net data := by
  unfold triggerMatch
  rw [is]
  rfl

theorem match_topic (is : data.command = "TOPIC".toList) :
    triggerMatch scripts net data = allTriggers scripts net data .topc (topicMask data) := by
  unfold triggerMatch
  rw [is]
  rfl

theorem match_notice (is : data.command = "NOTICE".toList) : triggerMatch scripts net data =
    allTriggers scripts net data .notc (fun trig => onRest data (fun str => wildMatch str trig.mask)) := by
  unfold triggerMatch
  rw [is]
  rfl

-- The channel and the user, as JOIN and PART print them.
theorem maskOf_who (who : Who) (chan netNick : Str) :
    maskOf (some chan) (who.origin.asPrefix netNick) = newmask (chan ++ ' ' :: who.origin.text) := by
  simp [maskOf,shown,Who.origin,Origin.asPrefix,Origin.text]

theorem partMask_said (readable : msg.Readable) (read : decode net.nick msg.render = some data) (out : Readout net.nick msg data)
    (origin : msg.origin = some (Who.origin who)) (trig : Trigger Handler) :
    partMask data trig = some ((said msg).any (fun words =>
      wildMatch (newmask (words.takeWhile (fun c => c ≠ ' ') ++ ' ' :: who.origin.text)) trig.mask)) := by
  cases spoken : said msg with
  | none =>
      obtain ⟨none',-⟩ := out.silent (said_none.mp spoken)
      simp [partMask,none']
  | some words =>
      obtain ⟨trailing,some'⟩ := said_some.mp spoken
      obtain ⟨-,slots,found,rest,-⟩ := out.spoken words trailing some'
      have first := decode_first net.nick msg readable trailing some' read
      have pre : data.pre = some (who.origin.asPrefix net.nick) := by rw [out.pre,origin]; rfl
      have masked := maskOf_who who (words.takeWhile (fun c => c ≠ ' ')) net.nick
      rw [rest] at first
      simp only [partMask,rest,first,pre,masked,Option.bind_eq_bind,Option.bind_some,Option.any_some]
      simp [Who.origin,Origin.asPrefix]

theorem topicMask_said (out : Readout net.nick msg data) (words : parameters msg = [chan,topic]) (trig : Trigger Handler) :
    topicMask data trig = some ((said msg).any (fun _ => wildMatch (newmask (chan ++ ' ' :: topic)) trig.mask)) := by
  obtain ⟨head,last⟩ := two_words words
  obtain ⟨slots,params,first⟩ := head_param out head
  cases spoken : said msg with
  | none =>
      obtain ⟨-,noText⟩ := out.silent (said_none.mp spoken)
      simp [topicMask,params,noText,first]
  | some other =>
      obtain rfl := last other spoken
      obtain ⟨trailing,some'⟩ := said_some.mp spoken
      obtain ⟨text,-⟩ := out.spoken other trailing some'
      simp [topicMask,params,text,first]

end

theorem reached {net : Network} (member : kind ∈ together type) :
    ∀ trig ∈ (net.trigs kind).items, ∀ handler, trig.handler = some handler → Reached net type handler :=
  fun trig inside _ bound => ⟨kind,member,trig,inside,bound⟩

section
variable {scripts : Nat → Network → IrcData → Result} {net : Network} {msg : Message} {data : IrcData} {Ok : Network → Prop}
variable (out : Readout net.nick msg data) (ok : Ok net)
include out ok

theorem msgm_all (returning : Returning scripts data (Reached net .msgm) Ok) (handled : ∀ trig ∈ (net.trigs .msgm).items, trig.handler ≠ none)
    (words : parameters msg = [target,text]) (bot : net.botnick = some nick) (own : tstrcasecmp target nick = 0) :
    AllRan net .msgm text (matchPrivmsg scripts net data) ↔ Heard net msg text .msgm := by
  obtain ⟨head,last⟩ := two_words words
  obtain ⟨slots,params,first⟩ := head_param out head
  have goes : matchPrivmsg scripts net data = andThen
      (allTriggers scripts net data .msg (fun trig => (said msg).map (startsWith trig.mask)))
      (fun net => allTriggers scripts net data .msgm (fun trig => (said msg).map (fun str => wildMatch str trig.mask))) := by
    simp only [matchPrivmsg,params,first,bot,if_pos own,onRest_said out,Option.bind_eq_bind,Option.bind_some]
  rw [goes]
  cases spoken : said msg with
  | none =>
      simp only [Heard,spoken,ne_eq,not_true_eq_false,false_or]
      constructor
      · rintro ⟨next,out',done,-⟩
        obtain ⟨middle,before,later,more,start,rest,-⟩ := andThen_runs.mp done
        have msg := eachTrigger_faults (fun _ => rfl) start
        simp only [allTriggers,msg,eachTrigger,Option.some.injEq,Prod.mk.injEq] at start
        obtain ⟨rfl,-⟩ := start
        exact ⟨msg,eachTrigger_faults (fun _ => rfl) rest⟩
      · rintro ⟨msg,msgm⟩
        exact ⟨net,[],by simp [allTriggers,msg,msgm,eachTrigger,andThen],by simp [matching,msgm]⟩
  | some str =>
      obtain rfl := last str spoken
      have tested : ∀ trig ∈ (net.trigs .msg).items, Option.map (startsWith trig.mask) (some str) ≠ none := by simp
      obtain ⟨middle,before,start,fine,same,quiet,-⟩ :=
        each_runs returning .msg 0 ok tested (reached (by simp [together]))
      have fires := then_fires returning (fun mask => some (wildMatch str mask)) str start fine same
        (quiet .msgm (by decide)) (reached (by simp [together])) handled
      exact iff_of_true (fires.mpr (fun _ _ => rfl)) (.inl (by simp [spoken]))

theorem pubm_all (returning : Returning scripts data (Reached net .pubm) Ok) (handled : ∀ trig ∈ (net.trigs .pubm).items, trig.handler ≠ none)
    (words : parameters msg = [chan,text]) (bot : net.botnick = some nick) (away : tstrcasecmp chan nick ≠ 0) :
    AllRan net .pubm (chan ++ ' ' :: text) (matchPrivmsg scripts net data) ↔ Heard net msg (chan ++ ' ' :: text) .pubm := by
  obtain ⟨head,-⟩ := two_words words
  obtain ⟨slots,params,first⟩ := head_param out head
  have goes : matchPrivmsg scripts net data = andThen (pubTriggers scripts net data)
      (fun net => allTriggers scripts net data .pubm (fun trig => (said msg).map (fun str => wildMatch str trig.mask))) := by
    simp only [matchPrivmsg,params,first,bot,if_neg away,onRest_said out,Option.bind_eq_bind,Option.bind_some]
  obtain ⟨middle,before,start,fine,same,quiet⟩ := pub_runs returning ok (reached (by simp [together]))
  have fires := then_fires returning (fun mask => (said msg).map (fun str => wildMatch str mask)) (chan ++ ' ' :: text)
    start fine same quiet (reached (by simp [together])) handled
  rw [goes,fires]
  simp only [Heard,Option.map_eq_some_iff]

theorem notc_all (returning : Returning scripts data (Reached net .notc) Ok) (handled : ∀ trig ∈ (net.trigs .notc).items, trig.handler ≠ none)
    (is : msg.command = "NOTICE".toList) (words : parameters msg = [dest,text]) :
    AllRan net .notc text (triggerMatch scripts net data) ↔ Heard net msg text .notc := by
  obtain ⟨-,last⟩ := two_words words
  rw [match_notice (out.command.trans is),each_fires returning _ _ ok (reached (by simp [together])) handled]
  simp only [onRest_said out,Heard]
  cases spoken : said msg with
  | none => simp [List.eq_nil_iff_forall_not_mem]
  | some str =>
      obtain rfl := last str spoken
      simp

theorem join_all (readable : msg.Readable) (read : decode net.nick msg.render = some data)
    (returning : Returning scripts data (Reached net .join) Ok) (handled : ∀ trig ∈ (net.trigs .join).items, trig.handler ≠ none)
    (is : msg.command = "JOIN".toList) (words : parameters msg = [chan]) (word : Word chan) (origin : msg.origin = some (Who.origin who)) :
    AllRan net .join (chan ++ ' ' :: who.origin.text) (triggerMatch scripts net data) ↔ Heard net msg (chan ++ ' ' :: who.origin.text) .join := by
  rw [match_join (out.command.trans is)]
  unfold matchJoin Heard
  cases spoken : said msg with
  | none =>
      obtain ⟨none',-⟩ := out.silent (said_none.mp spoken)
      simp only [none',if_true]
      constructor
      · rintro ⟨next,out',done,order⟩
        cases done
        simpa using List.findIdxs_eq_nil_iff.mp order.symm
      · intro unmatched
        exact ⟨net,[],rfl,(List.findIdxs_eq_nil_iff.mpr unmatched).symm⟩
  | some str =>
      obtain ⟨trailing,some'⟩ := said_some.mp spoken
      obtain ⟨-,slots,found,rest,-⟩ := out.spoken str trailing some'
      have heard := decode_first net.nick msg readable trailing some' read
      have only : str = chan := by
        unfold parameters at words
        rw [trailing,Option.toList_some] at words
        have split : msg.middles ++ [str] = [] ++ [chan] := words
        exact List.singleton_inj.mp (List.append_inj' split rfl).2
      subst only
      have whole : str.takeWhile (fun c => c ≠ ' ') = str := by
        refine List.takeWhile_eq_self_iff.mpr ?_
        intro c inside
        simpa using fun space : c = ' ' => word.2.1 (space ▸ inside)
      have pre : data.pre = some (who.origin.asPrefix net.nick) := by rw [out.pre,origin]; rfl
      rw [rest,whole] at heard
      simp only [rest,heard,pre,maskOf_who,Option.bind_eq_bind,Option.bind_some,reduceCtorEq,if_false]
      cases table : (net.trigs .join).items with
      | nil => simp [AllRan]
      | cons trig others =>
          have inside : trig ∈ (net.trigs .join).items := by simp [table]
          obtain ⟨next,out',done,-,-,-,fires⟩ := try_runs returning .join 0
            (wildMatch (newmask (str ++ ' ' :: who.origin.text)) trig.mask) ok (reached (by simp [together]) trig inside)
          rw [Option.isSome_iff_ne_none.mpr (handled trig inside),Bool.and_true] at fires
          simp only [List.head?_cons,Option.bind_some,done,AllRan,Option.some.injEq,Prod.mk.injEq,table,List.cons.injEq]
          constructor
          · rintro ⟨next',before,⟨rfl,rfl⟩,order⟩
            rw [fires] at order
            obtain ⟨same,unmatched⟩ := head_only.mp order
            exact ⟨trig,others,⟨rfl,rfl⟩,same,unmatched⟩
          · rintro ⟨trig',others',⟨rfl,rfl⟩,same,unmatched⟩
            refine ⟨next,out',⟨rfl,rfl⟩,?_⟩
            rw [fires]
            exact head_only.mpr ⟨same,unmatched⟩

theorem part_all (readable : msg.Readable) (read : decode net.nick msg.render = some data)
    (returning : Returning scripts data (Reached net .part) Ok) (handled : ∀ trig ∈ (net.trigs .part).items, trig.handler ≠ none)
    (is : msg.command = "PART".toList) (origin : msg.origin = some (Who.origin who)) :
    AllRan net .part (chan ++ ' ' :: who.origin.text) (triggerMatch scripts net data) ↔ Heard net msg (chan ++ ' ' :: who.origin.text) .part := by
  rw [match_part (out.command.trans is),each_fires returning _ _ ok (reached (by simp [together])) handled]
  simp only [partMask_said readable read out origin,Heard,origin,Option.elim_some,Option.some.injEq]
  exact forall₂_congr (fun _ _ => eq_comm)

theorem topc_all (returning : Returning scripts data (Reached net .topc) Ok) (handled : ∀ trig ∈ (net.trigs .topc).items, trig.handler ≠ none)
    (is : msg.command = "TOPIC".toList) (words : parameters msg = [chan,topic]) :
    AllRan net .topc (chan ++ ' ' :: topic) (triggerMatch scripts net data) ↔ Heard net msg (chan ++ ' ' :: topic) .topc := by
  rw [match_topic (out.command.trans is),each_fires returning _ _ ok (reached (by simp [together])) handled]
  simp only [topicMask_said out words,Heard,Option.some.injEq]
  exact forall₂_congr (fun _ _ => eq_comm)

omit ok in
theorem sign_all (is : msg.command = "QUIT".toList) : AllRan net .sign text (triggerMatch scripts net data) ↔ Heard net msg text .sign := by
  rw [match_quit (out.command.trans is)]
  constructor
  · rintro ⟨next,out',done,order⟩
    cases done
    exact List.findIdxs_eq_nil_iff.mp order.symm
  · intro unmatched
    exact ⟨net,[],rfl,(List.findIdxs_eq_nil_iff.mpr unmatched).symm⟩

end

-- Every event, over every table.
theorem stackable_binds_fire (scripts : Nat → Network → IrcData → Result) (net : Network) (msg : Message) (readable : msg.Readable)
    (event : IsEvent net type msg text) (handled : ∀ trig ∈ (net.trigs type).items, trig.handler ≠ none)
    (returning : ∀ data, decode net.nick msg.render = some data → Returning scripts data (Reached net type) Ok) (ok : Ok net) :
    AllRan net type text (parseIrcLine scripts net msg.render) ↔ Heard net msg text type := by
  obtain ⟨data,read,out⟩ := decode_readout net.nick msg readable
  have returns := returning data read
  cases event with
  | msgm is words bot own =>
      rw [line_matched read out is (by decide) (by decide),match_privmsg (out.command.trans is)]
      exact msgm_all out ok returns handled words bot own
  | pubm is words bot away =>
      rw [line_matched read out is (by decide) (by decide),match_privmsg (out.command.trans is)]
      exact pubm_all out ok returns handled words bot away
  | notc is words origin =>
      rw [line_matched read out is (by decide) (by decide)]
      exact notc_all out ok returns handled is words
  | join is words word origin =>
      rw [line_matched read out is (by decide) (by decide)]
      exact join_all out ok readable read returns handled is words word origin
  | part is words origin =>
      rw [line_matched read out is (by decide) (by decide)]
      exact part_all out ok readable read returns handled is origin
  | sign is words origin chan recorded named on =>
      rw [line_matched read out is (by decide) (by decide)]
      exact sign_all out is
  | topc is words origin =>
      rw [line_matched read out is (by decide) (by decide)]
      exact topc_all out ok returns handled is words

-- Two triggers of every type, for everything.
def stackedTrigger (type : TrigType) : Trigger Handler := newTrigger none type "*".toList (some "call".toList) (some (.other 0))

def stackedNetwork : Network :=
  ⟨"bot".toList,some "bot".toList,none,none,.idle,[],fun type => (Chain.empty.add (stackedTrigger type)).add (stackedTrigger type)⟩

def silentScript (_id : Nat) (net : Network) (_data : IrcData) : Result := some (net,[])

theorem stacked_handled : ∀ trig ∈ (stackedNetwork.trigs type).items, trig.handler = some (.other 0) := by
  intro trig member
  have inside : trig ∈ [stackedTrigger type,stackedTrigger type] := member
  simp only [List.mem_cons,List.not_mem_nil,or_false,or_self] at inside
  rw [inside]
  rfl

theorem stacked_returning (data : IrcData) : Returning silentScript data (Reached stackedNetwork type) (fun _ => True) := by
  refine ⟨fun _ _ _ _ => trivial,?_⟩
  rintro net handler - ⟨kind,-,trig,inside,bound⟩
  have same := Option.some.inj ((stacked_handled trig inside).symm.trans bound)
  subst same
  exact ⟨net,[],rfl,trivial,fun _ => rfl,fun _ => rfl⟩

def ann : Who := ⟨"ann".toList,"a".toList,"h".toList⟩

def greeting : Message := ⟨some ann.origin,"PRIVMSG".toList,["bot".toList],some "hi there".toList⟩

def annJoins : Message := ⟨some ann.origin,"JOIN".toList,[],some "#c".toList⟩

theorem ann_readable (msg : Message) (command : Word msg.command) (middles : ∀ middle ∈ msg.middles, Word middle)
    (parameter : msg.middles ≠ [] ∨ msg.trailing ≠ none) (clean : ∀ c ∈ msg.render, c ≠ CBuffer.nul ∧ c ≠ '\r' ∧ c ≠ '\n')
    (origin : msg.origin = some ann.origin) : msg.Readable := by
  refine ⟨?_,command,middles,parameter,clean⟩
  intro origin' same
  cases origin.symm.trans same
  exact ⟨⟨by decide,by decide⟩,by decide⟩

theorem greeting_readable : greeting.Readable := by
  refine ann_readable greeting (by unfold Word; decide) ?_ (by decide) (by decide) rfl
  intro middle member
  obtain rfl := List.mem_singleton.mp member
  unfold Word
  decide

theorem annJoins_readable : annJoins.Readable :=
  ann_readable annJoins (by unfold Word; decide) (fun middle member => by cases member) (by decide) (by decide) rfl

theorem greeting_fires : AllRan stackedNetwork .msgm "hi there".toList (parseIrcLine silentScript stackedNetwork greeting.render) := by
  have event : IsEvent stackedNetwork .msgm greeting "hi there".toList := .msgm rfl rfl rfl (by decide)
  refine (stackable_binds_fire silentScript stackedNetwork greeting greeting_readable event ?_ (fun data _ => stacked_returning data)
    trivial).mpr (.inl (by decide))
  intro trig member
  simp [stacked_handled trig member]

-- The second trigger of a JOIN is not run.
theorem second_join_missed : annJoins.Readable ∧ IsEvent stackedNetwork .join annJoins "#c ann!a@h".toList ∧
    (∀ trig ∈ (stackedNetwork.trigs .join).items, trig.handler ≠ none) ∧
    (∀ data, Returning silentScript data (Reached stackedNetwork .join) (fun _ => True)) ∧
    ¬ AllRan stackedNetwork .join "#c ann!a@h".toList (parseIrcLine silentScript stackedNetwork annJoins.render) := by
  refine ⟨annJoins_readable,?_,?_,stacked_returning,?_⟩
  · show IsEvent stackedNetwork .join annJoins ("#c".toList ++ ' ' :: ann.origin.text)
    exact .join rfl rfl (by unfold Word; decide) rfl
  · intro trig member
    simp [stacked_handled trig member]
  · intro ran
    obtain ⟨data,read,out⟩ := decode_readout stackedNetwork.nick annJoins annJoins_readable
    have handled : ∀ trig ∈ (stackedNetwork.trigs .join).items, trig.handler ≠ none := by
      intro trig member
      simp [stacked_handled trig member]
    rw [line_matched read out rfl (by decide) (by decide)] at ran
    have exact' : AllRan stackedNetwork .join ("#c".toList ++ ' ' :: ann.origin.text) (triggerMatch silentScript stackedNetwork data) ↔
        Heard stackedNetwork annJoins ("#c".toList ++ ' ' :: ann.origin.text) .join :=
      join_all out trivial annJoins_readable read (stacked_returning data) handled rfl rfl (by unfold Word; decide) rfl
    have heard := exact'.mp ran
    have spoken : said annJoins ≠ none := by simp [said,annJoins]
    simp only [Heard,if_neg spoken] at heard
    obtain ⟨trig,rest,table,-,unmatched⟩ := heard
    have second : stackedTrigger .join ∈ rest := by
      have whole : [stackedTrigger .join,stackedTrigger .join] = trig :: rest := table
      cases whole
      simp
    have fires : wildMatch ("#c".toList ++ ' ' :: ann.origin.text) "*".toList = true := wildMatch_star _
    exact absurd (fires.symm.trans (unmatched _ second)) (by decide)

end Trollbot.Irc
