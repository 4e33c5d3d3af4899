import Trollbot.Unread

-- When the two spellings of a message come to the same end.
namespace Trollbot.Irc
open CBuffer IrcParse

-- The RAW triggers of the command have handlers that do not read what the spellings differ in; the
-- state is the one before each of them.
def RawAlike (scripts : Nat → Network → IrcData → Result) (data other : IrcData) (middles : List Str) :
    Nat → List (Trigger Handler) → Network → Prop
  | _,[],_ => True
  | place,trig :: rest,net =>
    if trig.mask = data.command then
      ∀ handler, trig.handler = some handler →
        Unread scripts (countUse net .raw place) data other middles handler ∧
        ∀ later out, runHandler scripts net data .raw place handler = some (later,out) →
          RawAlike scripts data other middles (place + 1) rest later
    else RawAlike scripts data other middles (place + 1) rest net

-- What a KICK is matched by, with the text after the colon or without one.
def kickText (chan nick : Str) (reason : Option Str) : Str := newmask (chan ++ ' ' :: nick ++ ' ' :: shown reason)

-- The KICK triggers with a handler match both texts or neither, and their handlers read neither.
def KickAlike (scripts : Nat → Network → IrcData → Result) (data other : IrcData) (middles : List Str) (said silent : Str) :
    Nat → List (Trigger Handler) → Network → Prop
  | _,[],_ => True
  | place,trig :: rest,net =>
    match trig.handler with
    | none => KickAlike scripts data other middles said silent (place + 1) rest net
    | some handler =>
      wildMatch said trig.mask = wildMatch silent trig.mask ∧
      if wildMatch said trig.mask then
        Unread scripts (countUse net .kick place) data other middles handler ∧
        ∀ later out, runHandler scripts net data .kick place handler = some (later,out) →
          KickAlike scripts data other middles said silent (place + 1) rest later
      else KickAlike scripts data other middles said silent (place + 1) rest net

-- No trigger that the mask matches has a handler.
def Unmatched (trigs : List (Trigger Handler)) (mask : Str) : Prop :=
  ∀ trig ∈ trigs, wildMatch mask trig.mask = true → trig.handler = none

-- When the two spellings of a message mean the same to the bot.
def Alike (scripts : Nat → Network → IrcData → Result) (net : Network) (origin : Option Origin) (command : Str)
    (middles : List Str) (p : Str) (data other : IrcData) : Prop :=
  let pre := origin.map (Origin.asPrefix net.nick)
  if command = "PING".toList then False
  else if command = "PRIVMSG".toList then
    ∃ target, middles.head? = some target ∧ ∀ botnick, net.botnick = some botnick →
      if tstrcasecmp target botnick = 0 then (net.trigs .msg).items = [] ∧ (net.trigs .msgm).items = []
      else (net.trigs .pubm).items = [] ∧ ∀ trig, (net.trigs .pub).items.find? (fun trig => startsWith trig.mask p) = some trig →
        trig.handler = none
  else if command = "JOIN".toList then
    ∃ found trig, pre = some found ∧ (net.trigs .join).items.head? = some trig ∧
      (wildMatch (maskOf (some p) found) trig.mask = true → trig.handler = none)
  else if command = "PART".toList then
    (net.trigs .part).items = [] ∨ ∃ found, pre = some found ∧
      (found.nick.isSome ∧ found.user.isSome ∧ found.host.isSome → Unmatched (net.trigs .part).items (maskOf (some p) found))
  else if command = "QUIT".toList then True
  else if command = "TOPIC".toList then
    ∀ chan, middles.head? = some chan → Unmatched (net.trigs .topc).items (newmask (chan ++ ' ' :: p))
  else if command = "KICK".toList then
    match middles with
    | [] => True
    | [chan] => Unmatched (net.trigs .kick).items (kickText chan p none)
    | chan :: nick :: _ =>
      KickAlike scripts data other middles (kickText chan nick none) (kickText chan nick (some p)) 0 (net.trigs .kick).items net
  else if command = "NOTICE".toList then (net.trigs .notc).items = []
  else (command = "302".toList → net.shost ≠ none ∨ '@' ∉ p) ∧ RawAlike scripts data other middles 0 (net.trigs .raw).items net

-- The commands that trigger_match has a branch for besides KICK, and PING.
def Dispatched (command : Str) : Prop :=
  command ∈ ["PING".toList,"PRIVMSG".toList,"JOIN".toList,"PART".toList,"QUIT".toList,"TOPIC".toList,"NOTICE".toList]

-- What two handlers of one message do can cancel out; here there is one at most.
def Single (net : Network) (command : Str) : Prop :=
  Dispatched command ∨ if command = "KICK".toList then (net.trigs .kick).items.length ≤ 1
    else ((net.trigs .raw).items.filter (fun trig => trig.mask = command)).length ≤ 1

-- No trigger of the list fires.
def Idle (hit : Trigger Handler → Option Bool) (trigs : List (Trigger Handler)) : Prop :=
  ∀ trig ∈ trigs, ∃ found, hit trig = some found ∧ (found = true → trig.handler = none)

section
variable {scripts : Nat → Network → IrcData → Result}

theorem runTrigger_silent : runTrigger scripts net data type place trig = some (later,[]) ↔
    later = net ∧ trig.handler = none := by
  unfold runTrigger
  cases trig.handler with
  | none => simp [eq_comm]
  | some handler =>
      simp only [runHandler,Option.bind_eq_bind,reduceCtorEq,and_false,iff_false]
      intro ran
      obtain ⟨result,-,done⟩ := Option.bind_eq_some_iff.mp ran
      cases done

theorem tryTrigger_silent : tryTrigger scripts net data type place trig found = some (later,[]) ↔
    later = net ∧ (found = true → trig.handler = none) := by
  cases found with
  | false => simp [tryTrigger,eq_comm]
  | true => simp [tryTrigger,runTrigger_silent]

theorem andThen_runs : andThen first second = some result ↔ ∃ middle out later more, first = some (middle,out) ∧
    second middle = some (later,more) ∧ result = (later,out ++ more) := by
  constructor
  · intro ran
    simp only [andThen,Option.bind_eq_bind,Option.bind_eq_some_iff] at ran
    obtain ⟨⟨middle,out⟩,start,⟨later,more⟩,next,done⟩ := ran
    exact ⟨middle,out,later,more,start,next,(Option.some.inj done).symm⟩
  · rintro ⟨middle,out,later,more,start,next,rfl⟩
    simp [andThen,start,next]

theorem andThen_silent : andThen first second = some (later,[]) ↔
    ∃ middle, first = some (middle,[]) ∧ second middle = some (later,[]) := by
  constructor
  · intro ran
    simp only [andThen,Option.bind_eq_bind,Option.bind_eq_some_iff] at ran
    obtain ⟨⟨middle,out⟩,start,⟨net,more⟩,next,done⟩ := ran
    simp only [Option.some.injEq,Prod.mk.injEq,List.append_eq_nil_iff] at done
    obtain ⟨rfl,rfl,rfl⟩ := done
    exact ⟨middle,start,next⟩
  · rintro ⟨middle,start,next⟩
    simp [andThen,start,next]

-- The loop does nothing exactly when no trigger fires.
theorem eachTrigger_silent : eachTrigger scripts data type hit place trigs net = some (later,[]) ↔ later = net ∧ Idle hit trigs := by
  induction trigs generalizing place net with
  | nil => simp [eachTrigger,Idle,eq_comm]
  | cons trig rest ih =>
      constructor
      · intro ran
        simp only [eachTrigger,Option.bind_eq_bind,Option.bind_eq_some_iff] at ran
        obtain ⟨found,tested,ran⟩ := ran
        obtain ⟨middle,first,others⟩ := andThen_silent.mp ran
        obtain ⟨rfl,none'⟩ := tryTrigger_silent.mp first
        obtain ⟨same,idle⟩ := ih.mp others
        refine ⟨same,?_⟩
        intro other member
        rcases List.mem_cons.mp member with rfl | later
        · exact ⟨found,tested,none'⟩
        · exact idle other later
      · rintro ⟨rfl,idle⟩
        obtain ⟨found,tested,none'⟩ := idle trig (by simp)
        have others : Idle hit rest := fun other member => idle other (by simp [member])
        simp only [eachTrigger,tested,Option.bind_eq_bind,Option.bind_some]
        exact andThen_silent.mpr ⟨later,tryTrigger_silent.mpr ⟨rfl,none'⟩,ih.mpr ⟨rfl,others⟩⟩

-- A test that faults on every trigger leaves an empty list only.
theorem eachTrigger_faults (faults : ∀ trig, hit trig = none)
    (ran : eachTrigger scripts data type hit place trigs net = some result) : trigs = [] := by
  cases trigs with
  | nil => rfl
  | cons trig rest =>
      simp only [eachTrigger,faults,Option.bind_eq_bind,Option.bind_none] at ran
      cases ran

theorem eachRaw_same (spelled : Spelled netNick origin command middles p data other)
    (alike : RawAlike scripts data other middles place trigs net) :
    eachRaw scripts data place trigs net = eachRaw scripts other place trigs net := by
  induction trigs generalizing place net with
  | nil => rfl
  | cons trig rest ih =>
      have command : other.command = data.command := spelled.commands.2.trans spelled.commands.1.symm
      unfold RawAlike at alike
      unfold eachRaw
      rw [command]
      split
      · rename_i mine
        rw [if_pos mine] at alike
        cases bound : trig.handler with
        | none => rfl
        | some handler =>
            obtain ⟨unread,after⟩ := alike handler bound
            have first : runHandler scripts net data .raw place handler = runHandler scripts net other .raw place handler := by
              simp only [runHandler,effect_same spelled unread]
            simp only [Option.bind_eq_bind,Option.bind_some]
            rw [← first]
            cases ran : runHandler scripts net data .raw place handler with
            | none => rfl
            | some result =>
                simp only [andThen,Option.bind_eq_bind,Option.bind_some,ih (after result.1 result.2 ran)]
      · rename_i notMine
        rw [if_neg notMine] at alike
        exact ih alike

-- Without a trigger of the command nothing is read.
theorem eachRaw_none {trigs : List (Trigger Handler)} (none' : trigs.filter (fun trig => trig.mask = data.command) = []) (place : Nat)
    (net : Network) : eachRaw scripts data place trigs net = some (net,[]) ∧ RawAlike scripts data other middles place trigs net := by
  induction trigs generalizing place with
  | nil => exact ⟨rfl,trivial⟩
  | cons trig rest ih =>
      have absent := List.filter_eq_nil_iff.mp none'
      have notMine : ¬trig.mask = data.command := by simpa using absent trig (by simp)
      have later : rest.filter (fun trig => trig.mask = data.command) = [] :=
        List.filter_eq_nil_iff.mpr (fun other member => absent other (by simp [member]))
      unfold eachRaw RawAlike
      rw [if_neg notMine,if_neg notMine]
      exact ih later (place + 1)

theorem andThen_skip (net : Network) (f : Network → Result) : andThen (some (net,[])) f = f net := by
  cases after : f net with
  | none => simp [andThen,after]
  | some result => simp [andThen,after]

theorem andThen_quiet (net : Result) : andThen net (fun net => some (net,[])) = net := by
  cases net with
  | none => rfl
  | some result => simp [andThen]

theorem runHandler_runs (ran : runHandler scripts net data type place handler = some result) :
    ∃ out, effect scripts handler (countUse net type place) data = some (result.1,out) ∧ result.2 = .ran type place :: out := by
  simp only [runHandler,Option.bind_eq_bind,Option.bind_eq_some_iff] at ran
  obtain ⟨⟨later,out⟩,done,same⟩ := ran
  cases same
  exact ⟨out,done,rfl⟩

-- One handler that comes to the same end for both spellings.
theorem runHandler_only (spelled : Spelled netNick origin command middles p data other)
    (ran : runHandler scripts net data type place handler = some result)
    (again : runHandler scripts net other type place handler = some result) :
    Unread scripts (countUse net type place) data other middles handler := by
  obtain ⟨out,first,said⟩ := runHandler_runs ran
  obtain ⟨out',second,said'⟩ := runHandler_runs again
  obtain rfl : out = out' := (List.cons.inj (said.symm.trans said')).2
  exact effect_only spelled first second

theorem eachRaw_only {trigs : List (Trigger Handler)} (spelled : Spelled netNick origin command middles p data other)
    (single : (trigs.filter (fun trig => trig.mask = data.command)).length ≤ 1)
    (ran : eachRaw scripts data place trigs net = some result) (again : eachRaw scripts other place trigs net = some result) :
    RawAlike scripts data other middles place trigs net := by
  have same : other.command = data.command := spelled.commands.2.trans spelled.commands.1.symm
  induction trigs generalizing place with
  | nil => trivial
  | cons trig rest ih =>
      unfold eachRaw at ran again
      unfold RawAlike
      rw [same] at again
      by_cases mine : trig.mask = data.command
      · have others : rest.filter (fun trig => trig.mask = data.command) = [] := by
          simp only [List.filter_cons,mine,decide_true,if_true,List.length_cons] at single
          exact List.eq_nil_of_length_eq_zero (by omega)
        have others' : rest.filter (fun trig => trig.mask = other.command) = [] := by rw [same]; exact others
        rw [if_pos mine] at ran again ⊢
        obtain ⟨handler,bound,ran⟩ := Option.bind_eq_some_iff.mp ran
        rw [bound] at again
        simp only [Option.bind_eq_bind,Option.bind_some] at again
        have quiet : ∀ d : IrcData, d.command = data.command →
            (fun net => eachRaw scripts d (place + 1) rest net) = fun net => some (net,[]) := by
          intro d is
          funext net
          have past : _ ∧ RawAlike scripts d other middles (place + 1) rest net := eachRaw_none (is ▸ others) (place + 1) net
          exact past.1
        rw [quiet data rfl,andThen_quiet] at ran
        rw [quiet other same,andThen_quiet] at again
        rintro handler' bound'
        cases bound.symm.trans bound'
        exact ⟨runHandler_only spelled ran again,fun later out _ => (eachRaw_none others (place + 1) later).2⟩
      · rw [if_neg mine] at ran again ⊢
        refine ih ?_ ran again
        simpa [List.filter_cons,mine] using single

-- A run of the RAW triggers begins with no other doing.
theorem eachRaw_head {trigs : List (Trigger Handler)} (ran : eachRaw scripts data place trigs net = some (later,out)) :
    out.head? ≠ some .listen := by
  induction trigs generalizing place net with
  | nil =>
      cases ran
      simp
  | cons trig rest ih =>
      unfold eachRaw at ran
      split at ran
      · obtain ⟨handler,-,ran⟩ := Option.bind_eq_some_iff.mp ran
        obtain ⟨middle,first,last,more,done,-,same⟩ := andThen_runs.mp ran
        obtain ⟨said,-,starts⟩ := runHandler_runs done
        cases same
        simp [show first = .ran .raw place :: said from starts]
      · exact ih ran

section
variable (spelled : Spelled netNick origin command middles p data other)
include spelled

theorem first_param : slot data.cParams 0 = some (some ((middles ++ [p]).head (by simp))) ∧
    (middles = [] → other.cParams = none) ∧
    (∀ first rest, middles = first :: rest → slot other.cParams 0 = some (some first)) := by
  obtain ⟨slots,params,read⟩ := spelled.params
  refine ⟨?_,?_,?_⟩
  · rw [params]
    exact slot_word read (by cases middles <;> rfl)
  · intro empty
    rcases spelled.otherParams with ⟨-,none'⟩ | ⟨some',-⟩
    · exact none'
    · exact absurd empty some'
  · rintro first rest rfl
    exact (spelled.same (by simp)).2

theorem onRest_faults (test : Str → Bool) : onRest data test = none := by
  simp [onRest,(rest_missing spelled).1]

omit spelled in
theorem pubTrigger_silent : pubTrigger scripts other p place trigs net = some (later,[]) ↔
    later = net ∧ ∀ trig, trigs.find? (fun trig => startsWith trig.mask p) = some trig → trig.handler = none := by
  induction trigs generalizing place with
  | nil => simp [pubTrigger,eq_comm]
  | cons trig rest ih =>
      unfold pubTrigger
      split
      · rename_i starts
        simp [runTrigger_silent,starts]
      · rename_i differs
        simpa [differs] using ih

theorem privmsg_same {net : Network} (alike : ∃ target, middles.head? = some target ∧ ∀ botnick, net.botnick = some botnick →
      if tstrcasecmp target botnick = 0 then (net.trigs .msg).items = [] ∧ (net.trigs .msgm).items = []
      else (net.trigs .pubm).items = [] ∧ ∀ trig, (net.trigs .pub).items.find? (fun trig => startsWith trig.mask p) = some trig →
        trig.handler = none) : matchPrivmsg scripts net data = matchPrivmsg scripts net other := by
  obtain ⟨target,first,quiet⟩ := alike
  obtain ⟨rest,rfl⟩ : ∃ rest, middles = target :: rest := by
    cases middles with
    | nil => cases first
    | cons head rest => exact ⟨rest,by rw [Option.some.inj first]⟩
  have here := spelled.same (show 0 < (target :: rest).length by simp)
  simp only [List.getElem?_cons_zero] at here
  simp only [matchPrivmsg,here.1,here.2,Option.bind_eq_bind,Option.bind_some]
  cases botnick : net.botnick with
  | none => rfl
  | some botnick' =>
      have idle := quiet botnick' botnick
      simp only [Option.bind_some]
      split
      · rename_i own
        rw [if_pos own] at idle
        simp [allTriggers,idle.1,idle.2,eachTrigger,andThen]
      · rename_i channel
        rw [if_neg channel] at idle
        have none' : pubTrigger scripts other p 0 (net.trigs .pub).items net = some (net,[]) :=
          pubTrigger_silent.mpr ⟨rfl,idle.2⟩
        simp [pubTriggers,spelled.rest.2,spelled.otherRest.2,none',allTriggers,idle.1,eachTrigger,andThen]

theorem privmsg_only {net : Network} (ran : matchPrivmsg scripts net data = some result)
    (again : matchPrivmsg scripts net other = some result) :
    ∃ target, middles.head? = some target ∧ ∀ botnick, net.botnick = some botnick →
      if tstrcasecmp target botnick = 0 then (net.trigs .msg).items = [] ∧ (net.trigs .msgm).items = []
      else (net.trigs .pubm).items = [] ∧ ∀ trig, (net.trigs .pub).items.find? (fun trig => startsWith trig.mask p) = some trig →
        trig.handler = none := by
  cases middles with
  | nil =>
      simp [matchPrivmsg,(first_param spelled).2.1 rfl,slot] at again
  | cons target rest =>
      refine ⟨target,rfl,?_⟩
      intro botnick bot
      have here := spelled.same (show 0 < (target :: rest).length by simp)
      simp only [List.getElem?_cons_zero] at here
      simp only [matchPrivmsg,here.1,here.2,bot,Option.bind_eq_bind,Option.bind_some] at ran again
      split
      · rename_i own
        rw [if_pos own] at ran
        obtain ⟨middle,out,later,more,first,second,-⟩ := andThen_runs.mp ran
        have msg := eachTrigger_faults (fun trig => onRest_faults spelled (startsWith trig.mask)) first
        simp only [allTriggers,msg,eachTrigger,Option.some.injEq,Prod.mk.injEq] at first
        obtain ⟨rfl,-⟩ := first
        exact ⟨msg,eachTrigger_faults (fun trig => onRest_faults spelled (fun str => wildMatch str trig.mask)) second⟩
      · rename_i channel
        rw [if_neg channel] at ran again
        obtain ⟨middle,out,later,more,first,second,done⟩ := andThen_runs.mp ran
        simp only [pubTriggers,spelled.rest.2,Option.some.injEq,Prod.mk.injEq] at first
        obtain ⟨rfl,rfl⟩ := first
        have pubm := eachTrigger_faults (fun trig => onRest_faults spelled (fun str => wildMatch str trig.mask)) second
        simp only [allTriggers,pubm,eachTrigger,Option.some.injEq,Prod.mk.injEq] at second
        obtain ⟨rfl,rfl⟩ := second
        rw [done] at again
        obtain ⟨last,pub,-⟩ := andThen_silent.mp again
        simp only [pubTriggers,spelled.otherRest.2] at pub
        exact ⟨pubm,(pubTrigger_silent.mp pub).2⟩

-- A JOIN is only seen after a colon.
theorem join_silent {net later : Network} : matchJoin scripts net other = some (later,[]) ↔ later = net ∧
    ∃ found trig, data.pre = some found ∧ (net.trigs .join).items.head? = some trig ∧
      (wildMatch (maskOf (some p) found) trig.mask = true → trig.handler = none) := by
  obtain ⟨slots,rest,-⟩ := spelled.otherRest.1
  have text := (rest_missing spelled).2
  rw [rest] at text
  simp only [matchJoin,rest,text,spelled.prefixes.2,Option.bind_eq_bind,Option.bind_some]
  constructor
  · intro ran
    simp only [Option.bind_eq_some_iff] at ran
    obtain ⟨found,pre,trig,first,ran⟩ := ran
    obtain ⟨same,quiet⟩ := tryTrigger_silent.mp ran
    exact ⟨same,found,trig,pre,first,quiet⟩
  · rintro ⟨rfl,found,trig,pre,first,quiet⟩
    simp only [pre,first,Option.bind_some]
    exact tryTrigger_silent.mpr ⟨rfl,quiet⟩

theorem partMask_other (pre : data.pre = some found) (trig : Trigger Handler) :
    partMask other trig = some (decide (found.nick.isSome ∧ found.user.isSome ∧ found.host.isSome) &&
      wildMatch (maskOf (some p) found) trig.mask) := by
  obtain ⟨slots,rest,-⟩ := spelled.otherRest.1
  have text := (rest_missing spelled).2
  rw [rest] at text
  simp only [partMask,rest,text,spelled.prefixes.2,pre,Option.bind_eq_bind,Option.bind_some]
  split
  · rename_i whole
    simp only [whole,and_self,decide_true,Bool.true_and]
  · rename_i part
    simp only [part,decide_false,Bool.false_and]

theorem part_silent {net later : Network} : allTriggers scripts net other .part (partMask other) = some (later,[]) ↔ later = net ∧
    ((net.trigs .part).items = [] ∨ ∃ found, data.pre = some found ∧
      (found.nick.isSome ∧ found.user.isSome ∧ found.host.isSome → Unmatched (net.trigs .part).items (maskOf (some p) found))) := by
  unfold allTriggers
  rw [eachTrigger_silent]
  refine and_congr_right (fun _ => ?_)
  constructor
  · intro idle
    cases trigs : (net.trigs .part).items with
    | nil => exact .inl rfl
    | cons trig rest =>
        rw [trigs] at idle
        obtain ⟨fires,tested,-⟩ := idle trig (by simp)
        cases origin : data.pre with
        | none =>
            obtain ⟨slots,rest',-⟩ := spelled.otherRest.1
            simp [partMask,rest',spelled.prefixes.2,origin] at tested
        | some found =>
            refine .inr ⟨found,rfl,?_⟩
            intro whole other' member hit
            obtain ⟨fires,tested',quiet⟩ := idle other' member
            rw [partMask_other spelled origin,hit,decide_eq_true whole] at tested'
            exact quiet (Option.some.inj tested').symm
  · rintro (empty | ⟨found,origin,unmatched⟩)
    · rw [empty]
      exact fun trig member => by cases member
    · intro trig member
      refine ⟨_,partMask_other spelled origin trig,?_⟩
      intro fires
      obtain ⟨whole,hit⟩ := Bool.and_eq_true_iff.mp fires
      exact unmatched (of_decide_eq_true whole) trig member hit

theorem topic_silent {net later : Network} : allTriggers scripts net other .topc (topicMask other) = some (later,[]) ↔ later = net ∧
    ∀ chan, middles.head? = some chan → Unmatched (net.trigs .topc).items (newmask (chan ++ ' ' :: p)) := by
  unfold allTriggers
  rw [eachTrigger_silent]
  refine and_congr_right (fun _ => ?_)
  cases middles with
  | nil =>
      have none' := (first_param spelled).2.1 rfl
      simp [Idle,topicMask,none']
  | cons chan rest =>
      have here := (first_param spelled).2.2 chan rest rfl
      have tested : ∀ trig, topicMask other trig = some (wildMatch (newmask (chan ++ ' ' :: p)) trig.mask) := by
        intro trig
        cases params : other.cParams with
        | none => simp [params,slot] at here
        | some slots =>
            rw [params] at here
            simp [topicMask,params,spelled.otherRest.2,here]
      simp [Idle,tested,Unmatched]

-- The middle form is seen by none of these branches.
theorem quiet_middle {net : Network} : matchJoin scripts net data = some (net,[]) ∧
    allTriggers scripts net data .part (partMask data) = some (net,[]) ∧
    allTriggers scripts net data .topc (topicMask data) = some (net,[]) := by
  obtain ⟨none',noText⟩ := spelled.rest
  refine ⟨by simp [matchJoin,none'],?_,?_⟩
  · refine eachTrigger_silent.mpr ⟨rfl,?_⟩
    exact fun trig _ => ⟨false,by simp [partMask,none'],by simp⟩
  · refine eachTrigger_silent.mpr ⟨rfl,?_⟩
    intro trig _
    obtain ⟨slots,params,-⟩ := spelled.params
    have here := (first_param spelled).1
    rw [params] at here
    exact ⟨false,by simp [topicMask,params,noText,here],by simp⟩

-- With less than two parameters before the last one, the second spelling of a KICK has no nick.
theorem kick_unheard (few : middles.length ≤ 1) (trig : Trigger Handler) : kickMask other trig = some false := by
  cases middles with
  | nil => simp [kickMask,(first_param spelled).2.1 rfl]
  | cons chan rest =>
      obtain rfl : rest = [] := List.eq_nil_of_length_eq_zero (by simpa using few)
      have first := (spelled.same (show 0 < [chan].length by simp)).2
      have stopped := spelled.stopped (by simp)
      cases params : other.cParams with
      | none => simp [params,slot] at first
      | some cells =>
          rw [params] at first stopped
          simp only [List.length_singleton] at stopped
          simp [kickMask,params,first,stopped]

theorem kick_said : (middles = [] → ∀ trig : Trigger Handler, kickMask data trig = some false) ∧
    (∀ chan, middles = [chan] → ∀ trig : Trigger Handler, kickMask data trig = some (wildMatch (kickText chan p none) trig.mask)) ∧
    ∀ chan nick rest, middles = chan :: nick :: rest → ∀ trig : Trigger Handler,
      kickMask data trig = some (wildMatch (kickText chan nick none) trig.mask) ∧
      kickMask other trig = some (wildMatch (kickText chan nick (some p)) trig.mask) := by
  obtain ⟨slots,params,read⟩ := spelled.params
  have silent := spelled.rest.2
  refine ⟨?_,?_,?_⟩
  · rintro rfl trig
    have first : slot (some slots) 0 = some (some p) := slot_word read rfl
    have second : slot (some slots) 1 = some none := slot_end read
    simp [kickMask,params,first,second]
  · rintro chan rfl trig
    have first : slot (some slots) 0 = some (some chan) := slot_word read rfl
    have second : slot (some slots) 1 = some (some p) := slot_word read rfl
    simp [kickMask,params,first,second,silent,kickText]
  · rintro chan nick rest rfl trig
    have first := spelled.same (show 0 < (chan :: nick :: rest).length by simp)
    have second := spelled.same (show 1 < (chan :: nick :: rest).length by simp)
    obtain ⟨others,params'⟩ : ∃ others, other.cParams = some others := by
      cases none' : other.cParams with
      | none => simp [none',slot] at first
      | some others => exact ⟨others,rfl⟩
    rw [params,params'] at first second
    simp only [List.getElem?_cons_zero,List.getElem?_cons_succ] at first second
    simp [kickMask,params,params',first,second,silent,spelled.otherRest.2,kickText]

theorem kick_same {net : Network} {trigs : List (Trigger Handler)} {hit hit' : Trigger Handler → Option Bool} {said silent : Str}
    (first : ∀ trig, hit trig = some (wildMatch said trig.mask)) (second : ∀ trig, hit' trig = some (wildMatch silent trig.mask))
    (alike : KickAlike scripts data other middles said silent place trigs net) :
    eachTrigger scripts data .kick hit place trigs net = eachTrigger scripts other .kick hit' place trigs net := by
  induction trigs generalizing place net with
  | nil => rfl
  | cons trig rest ih =>
      unfold KickAlike at alike
      simp only [eachTrigger,first,second,Option.bind_eq_bind,Option.bind_some]
      cases bound : trig.handler with
      | none =>
          rw [bound] at alike
          have quiet : ∀ (d : IrcData) found, tryTrigger scripts net d .kick place trig found = some (net,[]) :=
            fun d found => tryTrigger_silent.mpr ⟨rfl,fun _ => bound⟩
          rw [quiet,quiet,andThen_skip,andThen_skip]
          exact ih alike
      | some handler =>
          rw [bound] at alike
          obtain ⟨same,alike⟩ := alike
          rw [← same]
          cases matched : wildMatch said trig.mask with
          | false =>
              rw [matched] at alike
              simp only [tryTrigger,Bool.false_eq_true,if_false,andThen_skip]
              exact ih alike
          | true =>
              rw [matched,if_pos rfl] at alike
              obtain ⟨unread,after⟩ := alike
              have done : runHandler scripts net data .kick place handler = runHandler scripts net other .kick place handler := by
                simp only [runHandler,effect_same spelled unread]
              simp only [tryTrigger,runTrigger,bound,if_true,← done]
              cases ran : runHandler scripts net data .kick place handler with
              | none => rfl
              | some result =>
                  simp only [andThen,Option.bind_eq_bind,Option.bind_some,ih (after result.1 result.2 ran)]

theorem kick_only {net : Network} {trigs : List (Trigger Handler)} {hit hit' : Trigger Handler → Option Bool} {said silent : Str}
    (first : ∀ trig, hit trig = some (wildMatch said trig.mask)) (second : ∀ trig, hit' trig = some (wildMatch silent trig.mask))
    (single : trigs.length ≤ 1) (ran : eachTrigger scripts data .kick hit place trigs net = some result)
    (again : eachTrigger scripts other .kick hit' place trigs net = some result) :
    KickAlike scripts data other middles said silent place trigs net := by
  cases trigs with
  | nil => trivial
  | cons trig rest =>
      obtain rfl : rest = [] := List.eq_nil_of_length_eq_zero (by simpa using single)
      simp only [eachTrigger,first,second,Option.bind_eq_bind,Option.bind_some,andThen_quiet] at ran again
      unfold KickAlike
      cases bound : trig.handler with
      | none => trivial
      | some handler =>
          have fires : ∀ d : IrcData, tryTrigger scripts net d .kick place trig true = runHandler scripts net d .kick place handler := by
            intro d
            simp only [tryTrigger,runTrigger,bound,if_true]
          have passes : ∀ d : IrcData, tryTrigger scripts net d .kick place trig false = some (net,[]) := fun _ => rfl
          cases one : wildMatch said trig.mask with
          | false =>
              cases two : wildMatch silent trig.mask with
              | false => exact ⟨rfl,trivial⟩
              | true =>
                  rw [one,passes] at ran
                  rw [two,fires] at again
                  cases ran
                  obtain ⟨out,-,said'⟩ := runHandler_runs again
                  cases said'
          | true =>
              cases two : wildMatch silent trig.mask with
              | false =>
                  rw [one,fires] at ran
                  rw [two,passes] at again
                  cases again
                  obtain ⟨out,-,said'⟩ := runHandler_runs ran
                  cases said'
              | true =>
                  rw [one,fires] at ran
                  rw [two,fires] at again
                  exact ⟨rfl,runHandler_only spelled ran again,fun _ _ _ => trivial⟩

end

theorem dispatch_other (is : data.command = command) (notPing : command ≠ "PING".toList) (notHost : command ≠ "302".toList) :
    dispatch scripts net data = triggerMatch scripts net data := by
  simp only [dispatch,is,if_neg notPing,if_neg notHost,andThen_skip]

theorem host_raw (is : data.command = "302".toList) (net : Network) : triggerMatch scripts net data =
    eachRaw scripts data 0 (net.trigs .raw).items net := by
  unfold triggerMatch
  rw [is]
  rfl

-- A host that only the second spelling gives opens the listener first.
theorem host_only {net : Network} (spelled : Spelled net.nick origin "302".toList middles p data other)
    (single : ((net.trigs .raw).items.filter (fun trig => trig.mask = data.command)).length ≤ 1)
    (ran : dispatch scripts net data = some result) (again : dispatch scripts net other = some result) :
    ("302".toList = "302".toList → net.shost ≠ none ∨ '@' ∉ p) ∧ RawAlike scripts data other middles 0 (net.trigs .raw).items net := by
  obtain ⟨is,isOther⟩ := spelled.commands
  have ping : "302".toList ≠ "PING".toList := by decide
  have silent : serverHost net data = (net,[]) := by simp [serverHost,spelled.rest.2]
  simp only [dispatch,is,isOther,if_neg ping,if_true,silent,andThen_skip,host_raw is] at ran again
  by_cases known : net.shost ≠ none ∨ '@' ∉ p
  · have noHost : serverHost net other = (net,[]) := by
      rcases known with known | plain
      · obtain ⟨shost,known⟩ := Option.ne_none_iff_exists'.mp known
        simp [serverHost,known]
      · cases shost : net.shost with
        | none => simp [serverHost,shost,spelled.otherRest.2,plain]
        | some _ => simp [serverHost,shost]
    rw [noHost,andThen_skip,host_raw isOther] at again
    exact ⟨fun _ => known,eachRaw_only spelled single ran again⟩
  · obtain ⟨shost,at'⟩ := not_or.mp known
    obtain ⟨later,out⟩ := result
    have opened : (serverHost net other).2 = [.listen] := by
      simp [serverHost,Decidable.not_not.mp shost,spelled.otherRest.2,Decidable.not_not.mp at']
    obtain ⟨middle,first,last,more,start,-,same⟩ := andThen_runs.mp again
    cases same
    obtain rfl : first = [.listen] := by
      rw [← opened,Option.some.inj start]
    exact absurd rfl (eachRaw_head ran)

-- Spellings that mean the same are handled the same.
theorem alike_same {net : Network} (spelled : Spelled net.nick origin command middles p data other)
    (alike : Alike scripts net origin command middles p data other) :
    dispatch scripts net data = dispatch scripts net other := by
  obtain ⟨is,isOther⟩ := spelled.commands
  have pre := spelled.prefixes.1
  have quiet : matchJoin scripts net data = some (net,[]) ∧
    allTriggers scripts net data .part (partMask data) = some (net,[]) ∧
    allTriggers scripts net data .topc (topicMask data) = some (net,[]) := quiet_middle spelled
  unfold Alike at alike
  by_cases ping : command = "PING".toList
  · rw [if_pos ping] at alike
    exact alike.elim
  rw [if_neg ping] at alike
  by_cases host : command = "302".toList
  · subst host
    obtain ⟨unread,raw⟩ : ("302".toList = "302".toList → net.shost ≠ none ∨ '@' ∉ p) ∧
        RawAlike scripts data other middles 0 (net.trigs .raw).items net := alike
    have noHost : serverHost net data = (net,[]) ∧ serverHost net other = (net,[]) := by
      refine ⟨by simp [serverHost,spelled.rest.2],?_⟩
      rcases unread rfl with known | plain
      · obtain ⟨shost,known⟩ := Option.ne_none_iff_exists'.mp known
        simp [serverHost,known]
      · cases shost : net.shost with
        | none => simp [serverHost,shost,spelled.otherRest.2,plain]
        | some _ => simp [serverHost,shost]
    simp only [dispatch,is,isOther,if_neg ping,if_true,noHost,andThen_skip,host_raw is net,host_raw isOther net]
    exact eachRaw_same spelled raw
  rw [dispatch_other is ping host,dispatch_other isOther ping host]
  by_cases privmsg : command = "PRIVMSG".toList
  · rw [if_pos privmsg] at alike
    simp only [triggerMatch,is,isOther,if_pos privmsg]
    exact privmsg_same spelled alike
  rw [if_neg privmsg] at alike
  by_cases join : command = "JOIN".toList
  · rw [if_pos join,← pre] at alike
    simp only [triggerMatch,is,isOther,if_neg privmsg,if_pos join]
    exact quiet.1.trans ((join_silent spelled).mpr ⟨rfl,alike⟩).symm
  rw [if_neg join] at alike
  by_cases part : command = "PART".toList
  · rw [if_pos part,← pre] at alike
    simp only [triggerMatch,is,isOther,if_neg privmsg,if_neg join,if_pos part]
    exact quiet.2.1.trans ((part_silent spelled).mpr ⟨rfl,alike⟩).symm
  rw [if_neg part] at alike
  by_cases quit : command = "QUIT".toList
  · simp only [triggerMatch,is,isOther,if_neg privmsg,if_neg join,if_neg part,if_pos quit]
  rw [if_neg quit] at alike
  by_cases topic : command = "TOPIC".toList
  · rw [if_pos topic] at alike
    simp only [triggerMatch,is,isOther,if_neg privmsg,if_neg join,if_neg part,if_neg quit,if_pos topic]
    exact quiet.2.2.trans ((topic_silent spelled).mpr ⟨rfl,alike⟩).symm
  rw [if_neg topic] at alike
  by_cases kick : command = "KICK".toList
  · rw [if_pos kick] at alike
    simp only [triggerMatch,is,isOther,if_neg privmsg,if_neg join,if_neg part,if_neg quit,if_neg topic,if_pos kick]
    obtain ⟨none',one,more⟩ := kick_said spelled
    cases middles with
    | nil =>
        have first : Idle (kickMask data) (net.trigs .kick).items := fun trig _ => ⟨false,none' rfl trig,by simp⟩
        have second : Idle (kickMask other) (net.trigs .kick).items := fun trig _ => ⟨false,kick_unheard spelled (by simp) trig,by simp⟩
        exact (eachTrigger_silent.mpr ⟨rfl,first⟩).trans (eachTrigger_silent.mpr ⟨rfl,second⟩).symm
    | cons chan rest =>
        cases rest with
        | nil =>
            have first : Idle (kickMask data) (net.trigs .kick).items := fun trig member => ⟨_,one chan rfl trig,alike trig member⟩
            have second : Idle (kickMask other) (net.trigs .kick).items := fun trig _ => ⟨false,kick_unheard spelled (by simp) trig,by simp⟩
            exact (eachTrigger_silent.mpr ⟨rfl,first⟩).trans (eachTrigger_silent.mpr ⟨rfl,second⟩).symm
        | cons nick rest =>
            exact kick_same spelled (fun trig => (more chan nick rest rfl trig).1) (fun trig => (more chan nick rest rfl trig).2) alike
  rw [if_neg kick] at alike
  by_cases notice : command = "NOTICE".toList
  · rw [if_pos notice] at alike
    simp only [triggerMatch,is,isOther,if_neg privmsg,if_neg join,if_neg part,if_neg quit,if_neg topic,if_neg kick,
      if_pos notice,allTriggers,alike,eachTrigger]
  rw [if_neg notice] at alike
  simp only [triggerMatch,is,isOther,if_neg privmsg,if_neg join,if_neg part,if_neg quit,if_neg topic,if_neg kick,if_neg notice]
  exact eachRaw_same spelled alike.2

-- Where both spellings come to the same end, they mean the same.
theorem same_alike {net : Network} (spelled : Spelled net.nick origin command middles p data other) (single : Single net command)
    (ran : dispatch scripts net data = some result) (again : dispatch scripts net other = some result) :
    Alike scripts net origin command middles p data other := by
  obtain ⟨is,isOther⟩ := spelled.commands
  have pre := spelled.prefixes.1
  have quiet : matchJoin scripts net data = some (net,[]) ∧
    allTriggers scripts net data .part (partMask data) = some (net,[]) ∧
    allTriggers scripts net data .topc (topicMask data) = some (net,[]) := quiet_middle spelled
  unfold Alike
  by_cases ping : command = "PING".toList
  · simp [dispatch,is,ping,pong,(rest_missing spelled).1,andThen] at ran
  rw [if_neg ping]
  by_cases host : command = "302".toList
  · subst host
    have raw : ((net.trigs .raw).items.filter (fun trig => trig.mask = data.command)).length ≤ 1 := by
      rw [is]
      exact single.resolve_left (by unfold Dispatched; decide)
    exact host_only spelled raw ran again
  rw [dispatch_other is ping host] at ran
  rw [dispatch_other isOther ping host] at again
  by_cases privmsg : command = "PRIVMSG".toList
  · rw [if_pos privmsg]
    simp only [triggerMatch,is,isOther,if_pos privmsg] at ran again
    exact privmsg_only spelled ran again
  rw [if_neg privmsg]
  by_cases join : command = "JOIN".toList
  · rw [if_pos join,← pre]
    simp only [triggerMatch,is,isOther,if_neg privmsg,if_pos join,quiet.1] at ran again
    cases ran
    exact ((join_silent spelled).mp again).2
  rw [if_neg join]
  by_cases part : command = "PART".toList
  · rw [if_pos part,← pre]
    simp only [triggerMatch,is,isOther,if_neg privmsg,if_neg join,if_pos part,quiet.2.1] at ran again
    cases ran
    exact ((part_silent spelled).mp again).2
  rw [if_neg part]
  by_cases quit : command = "QUIT".toList
  · rw [if_pos quit]
    trivial
  rw [if_neg quit]
  by_cases topic : command = "TOPIC".toList
  · rw [if_pos topic]
    simp only [triggerMatch,is,isOther,if_neg privmsg,if_neg join,if_neg part,if_neg quit,if_pos topic,quiet.2.2] at ran again
    cases ran
    exact ((topic_silent spelled).mp again).2
  rw [if_neg topic]
  by_cases kick : command = "KICK".toList
  · rw [if_pos kick]
    have few : (net.trigs .kick).items.length ≤ 1 := by
      subst kick
      exact single.resolve_left (by unfold Dispatched; decide)
    simp only [triggerMatch,is,isOther,if_neg privmsg,if_neg join,if_neg part,if_neg quit,if_neg topic,if_pos kick] at ran again
    obtain ⟨none',one,more⟩ := kick_said spelled
    cases middles with
    | nil => trivial
    | cons chan rest =>
        cases rest with
        | nil =>
            have silent : Idle (kickMask other) (net.trigs .kick).items := fun trig _ => ⟨false,kick_unheard spelled (by simp) trig,by simp⟩
            rw [show allTriggers scripts net other .kick (kickMask other) = some (net,[]) from eachTrigger_silent.mpr ⟨rfl,silent⟩] at again
            cases again
            obtain ⟨-,idle⟩ := eachTrigger_silent.mp ran
            intro trig member hit
            obtain ⟨found,tested,unbound⟩ := idle trig member
            rw [one chan rfl trig,hit] at tested
            exact unbound (Option.some.inj tested).symm
        | cons nick rest =>
            exact kick_only spelled (fun trig => (more chan nick rest rfl trig).1) (fun trig => (more chan nick rest rfl trig).2) few ran again
  rw [if_neg kick]
  by_cases notice : command = "NOTICE".toList
  · rw [if_pos notice]
    simp only [triggerMatch,is,if_neg privmsg,if_neg join,if_neg part,if_neg quit,if_neg topic,if_neg kick,if_pos notice] at ran
    exact eachTrigger_faults (fun trig => onRest_faults spelled (fun str => wildMatch str trig.mask)) ran
  rw [if_neg notice]
  have raw : ((net.trigs .raw).items.filter (fun trig => trig.mask = data.command)).length ≤ 1 := by
    have named : ¬Dispatched command := by
      simp only [Dispatched,List.mem_cons,List.not_mem_nil,ping,privmsg,join,part,quit,topic,notice,or_self,not_false_eq_true]
    have few := single.resolve_left named
    rw [if_neg kick] at few
    rwa [is]
  simp only [triggerMatch,is,isOther,if_neg privmsg,if_neg join,if_neg part,if_neg quit,if_neg topic,if_neg kick,if_neg notice] at ran again
  exact ⟨fun same => absurd same host,eachRaw_only spelled raw ran again⟩

-- Both spellings have the same result where the bot does not read what they differ in; with one handler
-- for the message, that is the only way to the same end.
theorem spellings_agree (scripts : Nat → Network → IrcData → Result) (net : Network)
    (well : (middleForm origin command middles p).WellFormed) :
    ∃ data other, decode net.nick (middleForm origin command middles p).render = some data ∧
      decode net.nick (colonForm origin command middles p).render = some other ∧
      (Alike scripts net origin command middles p data other →
        parseIrcLine scripts net (middleForm origin command middles p).render =
          parseIrcLine scripts net (colonForm origin command middles p).render) ∧
      (Single net command → (∃ result, parseIrcLine scripts net (middleForm origin command middles p).render = some result ∧
        parseIrcLine scripts net (colonForm origin command middles p).render = some result) →
        Alike scripts net origin command middles p data other) := by
  obtain ⟨data,other,read,readOther,spelled⟩ := spelled net.nick well
  refine ⟨data,other,read,readOther,?_,?_⟩
  · intro alike
    simp only [parseIrcLine,read,readOther,Option.bind_eq_bind,Option.bind_some]
    exact alike_same spelled alike
  · rintro single ⟨result,ran,again⟩
    simp only [parseIrcLine,read,readOther,Option.bind_eq_bind,Option.bind_some] at ran again
    exact same_alike spelled single ran again

end

-- A network with one channel, the built-in JOIN trigger and nothing else.
def joinedNetwork : Network :=
  ⟨"bot".toList,some "bot".toList,none,none,.idle,[newChannel "#c".toList],
    fun type => if type = .join then ⟨[],[builtin .join "*".toList .newJoin]⟩ else .empty⟩

def joiner : Option Origin := some (.mask "ann".toList "a".toList "h".toList)

theorem oneWord_clean (word : Word command) (last : Word p)
    (clean : ∀ c ∈ (middleForm joiner command [] p).render, c ≠ nul ∧ c ≠ '\r' ∧ c ≠ '\n') :
    (middleForm joiner command [] p).WellFormed := by
  refine ⟨?_,word,?_,by simp [middleForm],.inl (by simp [middleForm]),clean⟩
  · intro origin same
    cases same
    exact ⟨⟨by decide,by decide⟩,by decide⟩
  · intro middle member
    obtain rfl : middle = p := by simpa [middleForm] using member
    exact last

-- The quit of a user: its text is not read.
theorem quit_agrees :
    ∃ data other, decode joinedNetwork.nick (middleForm joiner "QUIT".toList [] "bye".toList).render = some data ∧
      decode joinedNetwork.nick (colonForm joiner "QUIT".toList [] "bye".toList).render = some other ∧
      parseIrcLine (fun _ net _ => some (net,[])) joinedNetwork (middleForm joiner "QUIT".toList [] "bye".toList).render =
        parseIrcLine (fun _ net _ => some (net,[])) joinedNetwork (colonForm joiner "QUIT".toList [] "bye".toList).render := by
  have well : (middleForm joiner "QUIT".toList [] "bye".toList).WellFormed :=
    oneWord_clean (by unfold Word; decide) (by unfold Word; decide) (by decide)
  obtain ⟨data,other,read,readOther,alike,-⟩ := spellings_agree (fun _ net _ => some (net,[])) joinedNetwork well
  exact ⟨data,other,read,readOther,alike trivial⟩

-- What was done, and the nicks of every channel.
def outcome (result : Result) : Option (List Output × List (List (Option Str))) :=
  result.map (fun done => (done.2,done.1.chans.map (fun chan => chan.userList.items.map (·.nick))))

-- JOIN #c adds nobody, JOIN :#c adds the user.
theorem join_spellings_differ :
    (middleForm joiner "JOIN".toList [] "#c".toList).WellFormed ∧
    outcome (parseIrcLine (fun _ net _ => some (net,[])) joinedNetwork (middleForm joiner "JOIN".toList [] "#c".toList).render) =
      some ([],[[]]) ∧
    outcome (parseIrcLine (fun _ net _ => some (net,[])) joinedNetwork (colonForm joiner "JOIN".toList [] "#c".toList).render) =
      some ([.ran .join 0],[[some "ann".toList]]) :=
  ⟨oneWord_clean (by unfold Word; decide) (by unfold Word; decide) (by decide),rfl,rfl⟩

end Trollbot.Irc
