import Trollbot.DccCommand
import Trollbot.Stackable

-- The binds for commands: which triggers a text runs in a private message, on a channel and on the
-- partyline.
namespace Trollbot.Irc
open DccCommand IrcParse

def firstWord (text : Str) : Str := text.takeWhile (fun c => c ≠ ' ')

-- A PRIVMSG with a text, as it has been decoded.
structure Addressed (data : IrcData) (target text : Str) : Prop where
  command : data.command = "PRIVMSG".toList
  target : slot data.cParams 0 = some (some target)
  first : ∃ word, slot data.rest 0 = some (some word)
  text : data.restStr = some text

-- Where a text comes from. A user of the partyline is one of the list.
inductive Way where
  | msg (data : IrcData)
  | pub (data : IrcData)
  | dcc (users : List User) (user : User)

def Way.type : Way → TrigType
  | .msg _ => .msg
  | .pub _ => .pub
  | .dcc _ _ => .dcc

def Arrives (net : Network) (text : Str) : Way → Prop
  | .msg data => ∃ target nick, Addressed data target text ∧ net.botnick = some nick ∧ tstrcasecmp target nick = 0
  | .pub data => ∃ target nick, Addressed data target text ∧ net.botnick = some nick ∧ tstrcasecmp target nick ≠ 0
  | .dcc users user => user ∈ users

-- The handlers of the lists that a message reaches return, and leave the lists alone.
def Handled (scripts : Nat → Network → IrcData → Result) (net : Network) (Ok : Network → Prop) : Way → Prop
  | .msg data => Returning scripts data (Reached net .msgm) Ok
  | .pub data => Returning scripts data (Reached net .pubm) Ok
  | .dcc _ _ => True

def RunsOnly (net : Network) (type : TrigType) (word : Str) (result : Result) : Prop :=
  ∃ next out, result = some (next,out) ∧ ∀ place ∈ ran type out, ∃ trig, (net.trigs type).items[place]? = some trig ∧ trig.mask = word

def runnable (users : List User) (user : User) (trig : Trigger Handler) : Bool :=
  decide (mayRun users user trig = some true) && trig.handler.isSome

-- Only the triggers whose mask is the first word are run, and on the partyline one of them is where
-- there is one.
def Fires (scripts : Nat → Network → IrcData → Result) (net : Network) (text : Str) : Way → Prop
  | .msg data => RunsOnly net .msg (firstWord text) (triggerMatch scripts net data)
  | .pub data => RunsOnly net .pub (firstWord text) (triggerMatch scripts net data)
  | .dcc users user =>
    (∀ place trig, dccCommandHandler users user text 0 (net.trigs .dcc).items = some (.handled place trig) → trig.mask = firstWord text) ∧
      ((∃ trig ∈ (net.trigs .dcc).items, trig.mask = firstWord text ∧ runnable users user trig = true) →
        ∃ place trig, dccCommandHandler users user text 0 (net.trigs .dcc).items = some (.handled place trig) ∧
          (net.trigs .dcc).items[place]? = some trig ∧ trig.mask = firstWord text)

-- No mask is a shorter start of the first word: of all triggers of private messages, of the first
-- one for a channel, and of the first one that may run on the partyline.
def Fits (net : Network) (text : Str) : Way → Prop
  | .msg _ => ∀ trig ∈ (net.trigs .msg).items, trig.handler ≠ none → trig.mask <+: firstWord text → trig.mask = firstWord text
  | .pub _ => ∀ trig, (net.trigs .pub).items.find? (fun trig => trig.mask.isPrefixOf (firstWord text)) = some trig →
      trig.handler = none ∨ trig.mask = firstWord text
  | .dcc users user => ∀ trig, (net.trigs .dcc).items.find? (fun trig => trig.mask.isPrefixOf (firstWord text) && runnable users user trig) =
      some trig → trig.mask = firstWord text

-- A mask without spaces is a start of the text exactly when it is one of the first word.
theorem start_word {mask : Str} (spaceless : ' ' ∉ mask) (text : Str) : mask.isPrefixOf text = mask.isPrefixOf (firstWord text) := by
  rw [Bool.eq_iff_iff,List.isPrefixOf_iff_prefix,List.isPrefixOf_iff_prefix]
  constructor
  · rintro ⟨rest,rfl⟩
    have plain : ∀ c ∈ mask, decide (c ≠ ' ') = true := by
      intro c member
      simpa using fun space : c = ' ' => spaceless (space ▸ member)
    rw [firstWord,List.takeWhile_append_of_pos plain]
    exact List.prefix_append _ _
  · intro start
    exact start.trans (List.takeWhile_prefix _)

section
variable {scripts : Nat → Network → IrcData → Result} {net : Network} {data : IrcData} {Ok : Network → Prop}

theorem spoken_rest (spoken : Addressed data target text) (test : Str → Bool) : onRest data test = some (test text) := by
  obtain ⟨word,first⟩ := spoken.first
  simp [onRest,first,spoken.text]

theorem runs_only {p : Trigger Handler → Bool} (word : Str) (same : ran type out = (net.trigs type).items.findIdxs p) :
    (∀ place ∈ ran type out, ∃ trig, (net.trigs type).items[place]? = some trig ∧ trig.mask = word) ↔
      ∀ trig ∈ (net.trigs type).items, p trig = true → trig.mask = word := by
  rw [same]
  constructor
  · intro only trig member fires
    obtain ⟨place,inside,here⟩ := List.getElem_of_mem member
    obtain ⟨other,there,named⟩ := only place ((List.mem_findIdxs_iff_pos_getElem inside).mpr (by rw [here]; exact fires))
    rw [List.getElem?_eq_getElem inside,here] at there
    exact Option.some.inj there ▸ named
  · intro only place member
    obtain ⟨inside,fires⟩ := List.mem_findIdxs_iff_exists_getElem_pos.mp member
    exact ⟨_,List.getElem?_eq_getElem inside,only _ (List.getElem_mem inside) fires⟩

theorem matched_msg (spoken : Addressed data target text) (bot : net.botnick = some nick) (own : tstrcasecmp target nick = 0) :
    triggerMatch scripts net data = andThen (allTriggers scripts net data .msg (fun trig => some (startsWith trig.mask text)))
      (fun net => allTriggers scripts net data .msgm (fun trig => some (wildMatch text trig.mask))) := by
  rw [match_privmsg spoken.command]
  simp only [matchPrivmsg,spoken.target,bot,if_pos own,spoken_rest spoken,Option.bind_eq_bind,Option.bind_some]

theorem matched_pub (spoken : Addressed data target text) (bot : net.botnick = some nick) (away : tstrcasecmp target nick ≠ 0) :
    triggerMatch scripts net data = andThen (pubTrigger scripts data text 0 (net.trigs .pub).items net)
      (fun net => allTriggers scripts net data .pubm (fun trig => some (wildMatch text trig.mask))) := by
  rw [match_privmsg spoken.command]
  simp only [matchPrivmsg,spoken.target,bot,if_neg away,spoken_rest spoken,pubTriggers,spoken.text,Option.bind_eq_bind,Option.bind_some]

-- The loop for the texts with wildcards comes back and runs nothing of the others.
theorem then_more (text : Str) {kind : TrigType} (returning : Returning scripts data (Reached net kind) Ok) (inside : kind ∈ together kind)
    (start : first = some (middle,out)) (fine : Ok middle)
    (same : ∀ type, (middle.trigs type).items.map triggerKey = (net.trigs type).items.map triggerKey) :
    ∃ next all, andThen first (fun net => allTriggers scripts net data kind (fun trig => some (wildMatch text trig.mask))) =
      some (next,all) ∧ ∀ type ≠ kind, ran type all = ran type out := by
  have bounds : ∀ trig ∈ (middle.trigs kind).items, ∀ handler, trig.handler = some handler → Reached net kind handler := by
    refine (forall_keys (P := fun key => ∀ handler, key.2 = some handler → Reached net kind handler) (same kind)).mpr ?_
    exact fun trig member handler has => ⟨kind,inside,trig,member,has⟩
  have tested : ∀ trig ∈ (middle.trigs kind).items, some (wildMatch text trig.mask) ≠ none := by simp
  obtain ⟨next,more,done,-,-,quiet,-⟩ := each_runs returning kind 0 fine tested bounds
  refine ⟨next,out ++ more,andThen_runs.mpr ⟨middle,out,next,more,start,done,rfl⟩,?_⟩
  intro type differ
  rw [ran_append,quiet type differ,List.append_nil]

theorem msg_only (returning : Returning scripts data (Reached net .msgm) Ok) (ok : Ok net) (spoken : Addressed data target text)
    (bot : net.botnick = some nick) (own : tstrcasecmp target nick = 0) (word : Str) :
    RunsOnly net .msg word (triggerMatch scripts net data) ↔
      ∀ trig ∈ (net.trigs .msg).items, startsWith trig.mask text = true → trig.handler ≠ none → trig.mask = word := by
  have bounds : ∀ trig ∈ (net.trigs .msg).items, ∀ handler, trig.handler = some handler → Reached net .msgm handler :=
    fun trig member handler has => ⟨.msg,by simp [together],trig,member,has⟩
  have tested : ∀ trig ∈ (net.trigs .msg).items, some (startsWith trig.mask text) ≠ none := by simp
  obtain ⟨middle,out,start,fine,same,-,order⟩ := each_runs returning .msg 0 ok tested bounds
  obtain ⟨next,all,done,others⟩ := then_more text returning (by simp [together]) start fine same
  have whole : ran .msg all = _ := (others .msg (by decide)).trans order
  rw [matched_msg spoken bot own]
  have only := runs_only word whole
  simp only [Option.some.injEq,Bool.and_eq_true,decide_eq_true_eq,Option.isSome_iff_ne_none,and_imp] at only
  rw [← only]
  constructor
  · rintro ⟨next',all',again,runs⟩
    have both := again.symm.trans done
    cases both
    exact runs
  · intro runs
    exact ⟨next,all,done,runs⟩

-- The loop of a channel's text, up to the first trigger that the text starts with.
theorem pub_runs_first {bound : Handler → Prop} (returning : Returning scripts data bound Ok) (ok : Ok net) (place : Nat)
    (bounds : ∀ trig ∈ trigs, ∀ handler, trig.handler = some handler → bound handler) :
    ∃ next out, pubTrigger scripts data text place trigs net = some (next,out) ∧ Ok next ∧
      (∀ type, (next.trigs type).items.map triggerKey = (net.trigs type).items.map triggerKey) ∧
      ((ran .pub out = [] ∧ ∀ trig, trigs.find? (fun trig => startsWith trig.mask text) = some trig → trig.handler = none) ∨
        ∃ i trig, ran .pub out = [place + i] ∧ trigs[i]? = some trig ∧ trig.handler ≠ none ∧
          trigs.find? (fun trig => startsWith trig.mask text) = some trig) := by
  induction trigs generalizing place with
  | nil => exact ⟨net,[],rfl,ok,fun _ => rfl,.inl ⟨rfl,fun _ found => (by cases found)⟩⟩
  | cons trig rest ih =>
      cases starts : startsWith trig.mask text with
      | true =>
          obtain ⟨next,out,done,fine,same,-,fires⟩ := try_runs returning .pub place true ok (bounds trig (by simp))
          refine ⟨next,out,?_,fine,same,?_⟩
          · rw [pubTrigger,if_pos starts]
            exact done
          · cases handler : trig.handler with
            | none =>
                refine .inl ⟨by simpa [handler] using fires,?_⟩
                intro other found
                rw [List.find?_cons,starts] at found
                cases found
                exact handler
            | some handler' => exact .inr ⟨0,trig,by simpa [handler] using fires,rfl,by simp [handler],by simp [starts]⟩
      | false =>
          obtain ⟨next,out,done,fine,same,first⟩ := ih (place + 1) (fun other member => bounds other (by simp [member]))
          refine ⟨next,out,?_,fine,same,?_⟩
          · rw [pubTrigger,if_neg (by simp [starts])]
            exact done
          · rw [List.find?_cons,starts]
            rcases first with none' | ⟨i,other,fires,here,some',found⟩
            · exact .inl none'
            · exact .inr ⟨i + 1,other,by rw [fires]; congr 1; omega,by simpa using here,some',found⟩

theorem pub_only (returning : Returning scripts data (Reached net .pubm) Ok) (ok : Ok net) (spoken : Addressed data target text)
    (bot : net.botnick = some nick) (away : tstrcasecmp target nick ≠ 0) (word : Str) :
    RunsOnly net .pub word (triggerMatch scripts net data) ↔
      ∀ trig, (net.trigs .pub).items.find? (fun trig => startsWith trig.mask text) = some trig → trig.handler = none ∨ trig.mask = word := by
  have bounds : ∀ trig ∈ (net.trigs .pub).items, ∀ handler, trig.handler = some handler → Reached net .pubm handler :=
    fun trig member handler has => ⟨.pub,by simp [together],trig,member,has⟩
  obtain ⟨middle,out,start,fine,same,order⟩ := pub_runs_first returning ok 0 bounds
  obtain ⟨next,all,done,others⟩ := then_more text returning (by simp [together]) start fine same
  rw [matched_pub spoken bot away]
  have goes : RunsOnly net .pub word (andThen (pubTrigger scripts data text 0 (net.trigs .pub).items net)
      (fun net => allTriggers scripts net data .pubm (fun trig => some (wildMatch text trig.mask)))) ↔
        ∀ place ∈ ran .pub out, ∃ trig, (net.trigs .pub).items[place]? = some trig ∧ trig.mask = word := by
    rw [← others .pub (by decide)]
    constructor
    · rintro ⟨next',all',again,runs⟩
      have both := again.symm.trans done
      cases both
      exact runs
    · intro runs
      exact ⟨next,all,done,runs⟩
  rw [goes]
  rcases order with ⟨none',unhandled⟩ | ⟨i,trig,fires,here,some',found⟩
  · rw [none']
    exact iff_of_true (by simp) (fun trig found => .inl (unhandled trig found))
  · rw [fires,found]
    constructor
    · intro only other same
      cases same
      obtain ⟨another,there,named⟩ := only (0 + i) (by simp)
      rw [Nat.zero_add,here] at there
      cases there
      exact .inr named
    · intro only place member
      obtain rfl := List.mem_singleton.mp member
      exact ⟨trig,by simpa using here,(only trig rfl).resolve_left some'⟩

end

section
variable {users : List User} {user : User}

theorem mayRun_total (listed : user ∈ users) (trig : Trigger Handler) : ∃ allowed, mayRun users user trig = some allowed := by
  unfold mayRun
  cases trig.globFlags with
  | none => exact ⟨true,rfl⟩
  | some flags =>
      cases users with
      | nil => cases listed
      | cons first rest =>
          simp only [eggMatchattr]
          split
          · exact ⟨_,rfl⟩
          · split
            · exact ⟨_,rfl⟩
            · exact ⟨_,rfl⟩

-- The partyline's loop, up to the first trigger that can be run.
theorem dcc_first (trigs : List (Trigger Handler)) (listed : user ∈ users) (command : Str) (place : Nat) :
    (trigs.find? (fun trig => trig.mask.isPrefixOf command && runnable users user trig) = none ∧
        dccCommandHandler users user command place trigs = some (dccPartylineHandler user command)) ∨
      ∃ i trig, trigs.find? (fun trig => trig.mask.isPrefixOf command && runnable users user trig) = some trig ∧ trigs[i]? = some trig ∧
        dccCommandHandler users user command place trigs = some (.handled (place + i) trig) := by
  induction trigs generalizing place with
  | nil => exact .inl ⟨rfl,rfl⟩
  | cons trig rest ih =>
      obtain ⟨allowed,may⟩ := mayRun_total listed trig
      have test : (trig.mask.isPrefixOf command && runnable users user trig) =
          (allowed && trig.mask.isPrefixOf command && trig.handler.isSome) := by
        rw [runnable,may]
        cases allowed <;> cases trig.mask.isPrefixOf command <;> simp
      rw [List.find?_cons]
      cases runs : trig.mask.isPrefixOf command && runnable users user trig with
      | true =>
          rw [runs] at test
          refine .inr ⟨0,trig,rfl,rfl,?_⟩
          simp only [dccCommandHandler,may,Option.bind_eq_bind,Option.bind_some,← test,if_true,Nat.add_zero]
      | false =>
          rw [runs] at test
          have goes : dccCommandHandler users user command place (trig :: rest) = dccCommandHandler users user command (place + 1) rest := by
            simp only [dccCommandHandler,may,Option.bind_eq_bind,Option.bind_some,← test,Bool.false_eq_true,if_false]
          rw [goes]
          rcases ih (place + 1) with none' | ⟨i,other,found,here,ran⟩
          · exact .inl none'
          · exact .inr ⟨i + 1,other,found,by simpa using here,by rw [ran]; congr 2; omega⟩

end

theorem find_word {trigs : List (Trigger Handler)} (spaceless : ∀ trig ∈ trigs, ' ' ∉ trig.mask) (more : Trigger Handler → Bool)
    (text : Str) : trigs.find? (fun trig => trig.mask.isPrefixOf text && more trig) =
      trigs.find? (fun trig => trig.mask.isPrefixOf (firstWord text) && more trig) := by
  induction trigs with
  | nil => rfl
  | cons trig rest ih =>
      have same := start_word (spaceless trig (by simp)) text
      rw [List.find?_cons,List.find?_cons,same,ih (fun other member => spaceless other (by simp [member]))]

theorem dcc_only {items : List (Trigger Handler)} (listed : user ∈ users) (text : Str) :
    ((∀ place trig, dccCommandHandler users user text 0 items = some (.handled place trig) → trig.mask = firstWord text) ∧
      ((∃ trig ∈ items, trig.mask = firstWord text ∧ runnable users user trig = true) →
        ∃ place trig, dccCommandHandler users user text 0 items = some (.handled place trig) ∧
          items[place]? = some trig ∧ trig.mask = firstWord text)) ↔
      ∀ trig, items.find? (fun trig => trig.mask.isPrefixOf text && runnable users user trig) = some trig → trig.mask = firstWord text := by
  rcases dcc_first items listed text 0 with ⟨none',ran⟩ | ⟨i,first,found,here,ran⟩
  · rw [none',ran]
    refine iff_of_true ⟨fun _ _ same => (by cases same),?_⟩ (fun _ same => by cases same)
    rintro ⟨trig,member,named,may⟩
    have passed := List.find?_eq_none.mp none' trig member
    have start : (firstWord text).isPrefixOf text = true := List.isPrefixOf_iff_prefix.mpr (List.takeWhile_prefix _)
    rw [named,start,may] at passed
    exact absurd rfl passed
  · rw [found,ran]
    constructor
    · rintro ⟨only,-⟩ trig same
      cases same
      exact only _ _ rfl
    · intro only
      have named := only first rfl
      refine ⟨?_,fun _ => ⟨_,first,rfl,by simpa using here,named⟩⟩
      intro place trig same
      cases same
      exact named

-- Over every table whose masks have no spaces, and every text.
theorem commands_fire (scripts : Nat → Network → IrcData → Result) (net : Network) (text : Str) (way : Way)
    (spaceless : ∀ trig ∈ (net.trigs way.type).items, ' ' ∉ trig.mask) (arrives : Arrives net text way)
    (handled : Handled scripts net Ok way) (ok : Ok net) : Fires scripts net text way ↔ Fits net text way := by
  cases way with
  | msg data =>
      obtain ⟨target,nick,spoken,bot,own⟩ := arrives
      refine (msg_only handled ok spoken bot own (firstWord text)).trans (forall₂_congr ?_)
      intro trig member
      have same := start_word (spaceless trig member) text
      rw [startsWith,same,List.isPrefixOf_iff_prefix]
      exact ⟨fun only some' start => only start some',fun only start some' => only some' start⟩
  | pub data =>
      obtain ⟨target,nick,spoken,bot,away⟩ := arrives
      replace spaceless : ∀ trig ∈ (net.trigs .pub).items, ' ' ∉ trig.mask := spaceless
      have words := find_word spaceless (fun _ => true) text
      simp only [Bool.and_true] at words
      refine (pub_only handled ok spoken bot away (firstWord text)).trans ?_
      simp only [startsWith,Fits,words]
  | dcc users user =>
      replace spaceless : ∀ trig ∈ (net.trigs .dcc).items, ' ' ∉ trig.mask := spaceless
      have words := find_word spaceless (runnable users user) text
      refine (dcc_only arrives text).trans ?_
      rw [words]
      rfl

def starSaid : IrcData :=
  ⟨none,"PRIVMSG".toList,some [some (some "bot".toList),some none],some "bot".toList,some [some (some ['*']),some none],some ['*']⟩

theorem star_fires : Fires silentScript stackedNetwork ['*'] (.msg starSaid) := by
  refine (commands_fire silentScript stackedNetwork ['*'] (.msg starSaid) ?_ ⟨"bot".toList,"bot".toList,⟨rfl,rfl,⟨['*'],rfl⟩,rfl⟩,rfl,by decide⟩
    (stacked_returning starSaid) trivial).mpr ?_
  · show ∀ trig ∈ [stackedTrigger .msg,stackedTrigger .msg], ' ' ∉ trig.mask
    decide
  · show ∀ trig ∈ [stackedTrigger .msg,stackedTrigger .msg], trig.handler ≠ none → trig.mask <+: ['*'] → trig.mask = ['*']
    decide

-- Two commands of which one starts the other.
def commandTrigger (mask : Str) : Trigger Handler := newTrigger none .dcc mask none (some (.other 0))

def commandNetwork : Network := { stackedNetwork with
  trigs := fun _ => (Chain.empty.add (commandTrigger ['a'])).add (commandTrigger ['a','b']) }

def operator : User := newUser ['o'] none none none none none none

theorem longer_command_lost : (∀ trig ∈ (commandNetwork.trigs .dcc).items, ' ' ∉ trig.mask) ∧
    Arrives commandNetwork ['a','b'] (.dcc [operator] operator) ∧
    ¬Fires silentScript commandNetwork ['a','b'] (.dcc [operator] operator) := by
  refine ⟨by decide,List.mem_singleton.mpr rfl,?_⟩
  rintro ⟨only,-⟩
  have named := only 0 (commandTrigger ['a']) rfl
  revert named
  decide

end Trollbot.Irc
