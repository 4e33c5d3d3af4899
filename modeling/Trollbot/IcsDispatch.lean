import Trollbot.Foundation.Rounds
import Trollbot.Ics
import Trollbot.WildLanguage

-- Which triggers the dispatchers of the chess server run.
namespace Trollbot.Ics
open Framing Rounds Tssv

def tellHit (data : IcsData) (trig : IcsTrigger EventHandler) : Option Bool := do
  let result ← matchwilds (some data.txtPacket) trig.mask
  some (decide (result ≠ 0))

def notifyHit (data : IcsData) (trig : IcsTrigger EventHandler) : Option Bool := do
  let who ← token data 1
  let result ← matchwilds who trig.mask
  some (decide (result = 0))

section
variable (scripts : Nat → Session → IcsData → Option (List Str)) (st : Session) (data : IcsData)

-- The loops of the three dispatchers, over a list.
def msgLoop (l : List (IcsTrigger MsgHandler)) : Result := eachMsg scripts data 0 l st
def tellLoop (l : List (IcsTrigger EventHandler)) : Result := eachEvent scripts data .tell (tellHit data) true 0 l st
def notifyLoop (l : List (IcsTrigger EventHandler)) : Result := eachEvent scripts data .notify (notifyHit data) false 0 l st

end

def ranMsgs (out : List Output) : List Nat :=
  out.filterMap (fun
    | .ranMsg place => some place
    | _ => none)

def ranOf (type : EventType) (out : List Output) : List Nat :=
  out.filterMap (fun
    | .ran other place => if other = type then some place else none
    | _ => none)

section
variable {η : Type}

-- A trigger that can be run and whose mask matches.
def wanted (subject : Option Str) (trig : IcsTrigger η) : Bool :=
  trig.handler.isSome && decide (matchwilds subject trig.mask = some 0)

-- The triggers that should have run, all of them and in order; or the handler of one of them has not
-- come back, and those before it have run.
def RunsJust (loop : List (IcsTrigger η) → Result) (places : List Output → List Nat) (effect : η → Session → Result)
    (should : IcsTrigger η → Bool) (l : List (IcsTrigger η)) : Prop :=
  (∃ next out, loop l = some (next,out) ∧ places out = l.findIdxs should) ∨
    ∃ front trig rest handler next out, l = front ++ trig :: rest ∧ loop front = some (next,out) ∧
      places out = front.findIdxs should ∧ should trig = true ∧ trig.handler = some handler ∧ effect handler next = none ∧
      loop (front ++ [trig]) = none

end

-- A line is the subject of the msg and the tell triggers, its second word that of the notify triggers.
structure Dispatches (scripts : Nat → Session → IcsData → Option (List Str)) (st : Session) (buffer : Str) : Prop where
  msg : RunsJust (msgLoop scripts st ⟨buffer,tssvSplit buffer⟩) ranMsgs (fun handler st => msgEffect scripts handler st ⟨buffer,tssvSplit buffer⟩)
    (wanted (some buffer)) st.ics.triggerTable.msg
  tell : RunsJust (tellLoop scripts st ⟨buffer,tssvSplit buffer⟩) (ranOf .tell)
    (fun handler st => eventEffect scripts handler st ⟨buffer,tssvSplit buffer⟩) (wanted (some buffer)) (st.ics.triggerTable.events .tell)
  notify : RunsJust (notifyLoop scripts st ⟨buffer,tssvSplit buffer⟩) (ranOf .notify)
    (fun handler st => eventEffect scripts handler st ⟨buffer,tssvSplit buffer⟩) (wanted (runs isBlank buffer)[1]?)
    (st.ics.triggerTable.events .notify)

-- Nothing is notified of, or the line has words; and one word with blanks behind it is not taken for
-- two where a mask matches the empty one.
def NotifyFits (l : List (IcsTrigger EventHandler)) (buffer : Str) : Prop :=
  ∀ trig ∈ l, (∃ c ∈ buffer, isBlank c = false) ∧
    ((runs isBlank buffer).length = 1 → ¬Closed buffer → trig.handler = none ∨ matchwilds (some []) trig.mask ≠ some 0)

section
variable {scripts : Nat → Session → IcsData → Option (List Str)} {data : IcsData}

-- The loops as rounds.
def msgHit (data : IcsData) (trig : IcsTrigger MsgHandler) : Option Bool :=
  (matchwilds (some data.txtPacket) trig.mask).map (fun result => decide (result = 0) && trig.handler.isSome)

def msgCall (scripts : Nat → Session → IcsData → Option (List Str)) (data : IcsData) (place : Nat) (trig : IcsTrigger MsgHandler)
    (st : Session) : Result :=
  trig.handler.bind (fun handler => (msgEffect scripts handler st data).map (fun did => (did.1,.ranMsg place :: did.2)))

theorem eachMsg_round (place : Nat) (l : List (IcsTrigger MsgHandler)) (st : Session) :
    eachMsg scripts data place l st = rounds (msgHit data) (msgCall scripts data) place l st := by
  induction l generalizing place st with
  | nil => rfl
  | cons trig rest ih =>
      cases matched : matchwilds (some data.txtPacket) trig.mask with
      | none => simp [eachMsg,rounds,msgHit,matched]
      | some result =>
          by_cases zero : result = 0
          · cases handler : trig.handler with
            | none =>
                have passed : msgHit data trig = some false := by simp [msgHit,matched,handler]
                rw [round_skips passed,← ih]
                simp [eachMsg,matched,zero,handler]
            | some handler' =>
                have called : msgHit data trig = some true := by simp [msgHit,matched,zero,handler]
                rw [round_calls called]
                simp only [eachMsg,matched,zero,handler,msgCall,Option.bind_eq_bind,Option.bind_some,decide_true]
                cases msgEffect scripts handler' st data with
                | none => rfl
                | some did =>
                    simp only [Option.bind_some,Option.map_some,← ih]
                    cases eachMsg scripts data (place + 1) rest did.1 with
                    | none => rfl
                    | some later => rfl
          · have passed : msgHit data trig = some false := by simp [msgHit,matched,zero]
            rw [round_skips passed,← ih]
            simp [eachMsg,matched,zero]

def eventHit (hit : IcsTrigger EventHandler → Option Bool) (trig : IcsTrigger EventHandler) : Option Bool :=
  (hit trig).map (fun found => found && trig.handler.isSome)

def eventCall (scripts : Nat → Session → IcsData → Option (List Str)) (data : IcsData) (type : EventType) (counts : Bool) (place : Nat)
    (trig : IcsTrigger EventHandler) (st : Session) : Result :=
  trig.handler.bind (fun handler => (eventEffect scripts handler st data).map (fun did =>
    (if counts then countUse did.1 type place else did.1,.ran type place :: did.2)))

theorem eachEvent_round (type : EventType) (hit : IcsTrigger EventHandler → Option Bool) (counts : Bool) (place : Nat)
    (l : List (IcsTrigger EventHandler)) (st : Session) :
    eachEvent scripts data type hit counts place l st = rounds (eventHit hit) (eventCall scripts data type counts) place l st := by
  induction l generalizing place st with
  | nil => rfl
  | cons trig rest ih =>
      cases matched : hit trig with
      | none => simp [eachEvent,rounds,eventHit,matched]
      | some found =>
          cases found with
          | false =>
              have passed : eventHit hit trig = some false := by simp [eventHit,matched]
              rw [round_skips passed,← ih]
              simp [eachEvent,matched]
          | true =>
              cases handler : trig.handler with
              | none =>
                  have passed : eventHit hit trig = some false := by simp [eventHit,matched,handler]
                  rw [round_skips passed,← ih]
                  simp [eachEvent,matched,handler]
              | some handler' =>
                  have called : eventHit hit trig = some true := by simp [eventHit,matched,handler]
                  rw [round_calls called]
                  simp only [eachEvent,matched,handler,eventCall,Option.bind_eq_bind,Option.bind_some]
                  cases eventEffect scripts handler' st data with
                  | none => rfl
                  | some did =>
                      simp only [Option.bind_some,Option.map_some,← ih]
                      cases eachEvent scripts data type hit counts (place + 1) rest (if counts then countUse did.1 type place else did.1) with
                      | none => rfl
                      | some later => rfl

theorem eventEffect_sends (ran : eventEffect scripts handler st data = some (next,out)) : ∀ output ∈ out, ∃ line, output = .sent line := by
  cases handler with
  | icsInternalStyleTwelveInit =>
      cases ran
      intro output member
      obtain ⟨line,-,rfl⟩ := List.mem_map.mp member
      exact ⟨_,rfl⟩
  | icsInternalAnnounceNewGame =>
      cases ran
      simp
  | script id =>
      obtain ⟨lines,-,same⟩ := Option.bind_eq_some_iff.mp ran
      cases same
      intro output member
      obtain ⟨line,-,rfl⟩ := List.mem_map.mp member
      exact ⟨_,rfl⟩

theorem ranOf_append (type : EventType) (a b : List Output) : ranOf type (a ++ b) = ranOf type a ++ ranOf type b := List.filterMap_append

theorem ranMsgs_append (a b : List Output) : ranMsgs (a ++ b) = ranMsgs a ++ ranMsgs b := List.filterMap_append

theorem eventCall_shows (type : EventType) (counts : Bool) (place : Nat) (trig : IcsTrigger EventHandler) (st next : Session)
    (out : List Output) (did : eventCall scripts data type counts place trig st = some (next,out)) : ranOf type out = [place] := by
  obtain ⟨handler,-,did⟩ := Option.bind_eq_some_iff.mp did
  obtain ⟨⟨middle,shown⟩,ran,same⟩ := Option.map_eq_some_iff.mp did
  cases same
  have quiet : ranOf type shown = [] := by
    rw [ranOf,List.filterMap_eq_nil_iff]
    intro output member
    obtain ⟨line,rfl⟩ := eventEffect_sends ran output member
    rfl
  have parts : Output.ran type place :: shown = [.ran type place] ++ shown := rfl
  rw [parts,ranOf_append,quiet]
  simp [ranOf]

-- No handler of an event runs msg triggers, so none of those does.
theorem eachEvent_quiet {hit : IcsTrigger EventHandler → Option Bool} {l : List (IcsTrigger EventHandler)}
    (ran : eachEvent scripts data type hit counts place l st = some (next,out)) : ranMsgs out = [] := by
  rw [eachEvent_round] at ran
  refine round_all (P := fun out => ranMsgs out = []) rfl ?_ ?_ ran
  · intro a b first second
    rw [ranMsgs_append,first,second]
    rfl
  · intro place trig st next out did
    obtain ⟨handler,-,did⟩ := Option.bind_eq_some_iff.mp did
    obtain ⟨⟨middle,shown⟩,ran,same⟩ := Option.map_eq_some_iff.mp did
    cases same
    rw [ranMsgs,List.filterMap_cons,List.filterMap_eq_nil_iff.mpr]
    intro output member
    obtain ⟨line,rfl⟩ := eventEffect_sends ran output member
    rfl

theorem msgEffect_quiet (ran : msgEffect scripts handler st data = some (next,out)) : ranMsgs out = [] := by
  cases handler with
  | icsInternalLogin =>
      obtain ⟨line,sent,same⟩ := Option.map_eq_some_iff.mp ran
      cases same
      obtain ⟨_,-,sent⟩ := Option.bind_eq_some_iff.mp sent
      obtain ⟨_,-,same⟩ := Option.bind_eq_some_iff.mp sent
      cases same
      rfl
  | icsInternalEnter =>
      cases ran
      rfl
  | icsInternalAntiAntiIdle =>
      replace ran : icsInternalAntiAntiIdle st = some (next,out) := ran
      unfold icsInternalAntiAntiIdle at ran
      split at ran
      · cases ran
        rfl
      · cases ran
        rfl
  | icsInternalConnect =>
      replace ran : icsInternalConnect scripts st data = some (next,out) := ran
      unfold icsInternalConnect at ran
      split at ran
      · cases ran
        rfl
      · obtain ⟨⟨middle,shown⟩,each,same⟩ := Option.bind_eq_some_iff.mp ran
        cases same
        exact eachEvent_quiet each
  | icsInternalTell => exact eachEvent_quiet ran
  | icsInternalNotify => exact eachEvent_quiet ran
  | icsInternalMyName =>
      obtain ⟨_,-,ran⟩ := Option.bind_eq_some_iff.mp ran
      obtain ⟨_,-,same⟩ := Option.bind_eq_some_iff.mp ran
      cases same
      rfl
  | icsInternalBoardGetInfo =>
      obtain ⟨game,-,ran⟩ := Option.bind_eq_some_iff.mp ran
      split at ran
      · exact eachEvent_quiet ran
      · cases ran
        rfl
  | icsInternalEndgame =>
      obtain ⟨first,-,ran⟩ := Option.bind_eq_some_iff.mp ran
      obtain ⟨game,-,ran⟩ := Option.bind_eq_some_iff.mp ran
      obtain ⟨⟨middle,shown⟩,each,same⟩ := Option.bind_eq_some_iff.mp ran
      cases same
      exact eachEvent_quiet each
  | script id =>
      obtain ⟨lines,-,same⟩ := Option.bind_eq_some_iff.mp ran
      cases same
      simp [ranMsgs]

theorem msgCall_shows (place : Nat) (trig : IcsTrigger MsgHandler) (st next : Session) (out : List Output)
    (did : msgCall scripts data place trig st = some (next,out)) : ranMsgs out = [place] := by
  obtain ⟨handler,-,did⟩ := Option.bind_eq_some_iff.mp did
  obtain ⟨⟨middle,shown⟩,ran,same⟩ := Option.map_eq_some_iff.mp did
  cases same
  have parts : Output.ranMsg place :: shown = [.ranMsg place] ++ shown := rfl
  rw [parts,ranMsgs_append,msgEffect_quiet ran]
  rfl

end

-- A loop and the rounds it is.
section
variable {η : Type} {loop : List (IcsTrigger η) → Result} {places : List Output → List Nat} {effect : η → Session → Result}
variable {should : IcsTrigger η → Bool} {l : List (IcsTrigger η)} {hit : IcsTrigger η → Option Bool} {st : Session}
variable {call : Nat → IcsTrigger η → Session → Result} (same : ∀ l, loop l = rounds hit call 0 l st)
include same

theorem runs_agree (just : RunsJust loop places effect should l)
    (shows : ∀ l next out, loop l = some (next,out) → places out = l.findIdxs (fun trig => decide (hit trig = some true))) :
    (∀ trig ∈ l, hit trig = some (should trig)) ∨ ∃ trig ∈ l, should trig = true ∧ hit trig ≠ some false := by
  rcases just with ⟨next,out,ended,order⟩ | ⟨front,trig,rest,handler,next,out,rfl,before,-,right,-,-,stuck⟩
  · refine .inl ?_
    intro trig member
    have tested := round_tested ((same l).symm.trans ended) trig member
    have agree := findIdxs_same.mp ((shows l next out ended).symm.trans order) trig member
    obtain ⟨found,hits⟩ := Option.ne_none_iff_exists'.mp tested
    rw [hits] at agree ⊢
    cases found with
    | false => simpa using agree
    | true => simpa using agree
  · refine .inr ⟨trig,by simp,right,?_⟩
    intro passed
    rw [same] at stuck before
    rw [round_append,before,Option.bind_some,round_skips passed] at stuck
    cases stuck

theorem agree_runs (nothing : places [] = []) (append : ∀ a b, places (a ++ b) = places a ++ places b)
    (one : ∀ place trig st next out, call place trig st = some (next,out) → places out = [place])
    (handled : ∀ trig ∈ l, should trig = true → ∃ handler, trig.handler = some handler ∧
      ∀ place st, call place trig st = none → effect handler st = none)
    (agree : ∀ trig ∈ l, hit trig = some (should trig)) : RunsJust loop places effect should l := by
  rcases round_right nothing append one 0 st agree with ⟨next,out,ended,order⟩ |
    ⟨front,trig,rest,next,out,rfl,before,order,right,stuck,whole⟩
  · exact .inl ⟨next,out,(same l).trans ended,order⟩
  · obtain ⟨handler,has,none'⟩ := handled trig (by simp) right
    exact .inr ⟨front,trig,rest,handler,next,out,rfl,(same front).trans before,order,right,has,none' _ _ stuck,(same _).trans whole⟩

end

theorem matchwilds_total (subject mask : Option Str) : ∃ result, matchwilds subject mask = some result := by
  cases subject with
  | none => exact ⟨1,rfl⟩
  | some text =>
      cases mask with
      | none => exact ⟨1,rfl⟩
      | some mask =>
          obtain ⟨result,-,returns⟩ := wild_ends text mask
          exact ⟨result,returns⟩

theorem token_second (split : tssvSplit buffer = some found) :
    token ⟨buffer,some found⟩ 1 = some (if (runs isBlank buffer).length = 1 ∧ ¬Closed buffer then some [] else (runs isBlank buffer)[1]?) := by
  have words' := split_some split
  simp only [token,Option.bind_eq_bind,Option.bind_some]
  rw [words']
  rcases all : runs isBlank buffer with _ | ⟨first,_ | ⟨second,more⟩⟩
  · by_cases closed : Closed buffer
    · rw [all,if_pos closed] at words'
      exact absurd words' (split_word split)
    · simp [closed]
  · by_cases closed : Closed buffer
    · simp [closed]
    · simp [closed]
  · simp

section
variable {scripts : Nat → Session → IcsData → Option (List Str)} {st : Session} {data : IcsData}

theorem msg_just (buffer : Str) : RunsJust (msgLoop scripts st ⟨buffer,tssvSplit buffer⟩) ranMsgs
    (fun handler st => msgEffect scripts handler st ⟨buffer,tssvSplit buffer⟩) (wanted (some buffer)) l := by
  refine agree_runs (fun l => eachMsg_round 0 l st) rfl ranMsgs_append msgCall_shows ?_ ?_
  · intro trig _ right
    obtain ⟨handler,has⟩ := Option.isSome_iff_exists.mp (Bool.and_eq_true_iff.mp right).1
    refine ⟨handler,has,?_⟩
    intro place st stuck
    simpa [msgCall,has] using stuck
  · intro trig _
    obtain ⟨result,returns⟩ := matchwilds_total (some buffer) trig.mask
    simp [msgHit,wanted,returns,Bool.and_comm]

section
variable {hit : IcsTrigger EventHandler → Option Bool} {should : IcsTrigger EventHandler → Bool} {l : List (IcsTrigger EventHandler)}
variable (type : EventType) (counts : Bool)

theorem events_just (right : ∀ trig ∈ l, should trig = true → trig.handler.isSome) (agree : ∀ trig ∈ l, eventHit hit trig = some (should trig)) :
    RunsJust (fun l => eachEvent scripts data type hit counts 0 l st) (ranOf type) (fun handler st => eventEffect scripts handler st data) should l := by
  refine agree_runs (fun l => eachEvent_round type hit counts 0 l st) rfl (ranOf_append type) (eventCall_shows type counts) ?_ agree
  intro trig member wants
  obtain ⟨handler,has⟩ := Option.isSome_iff_exists.mp (right trig member wants)
  refine ⟨handler,has,?_⟩
  intro place st stuck
  simpa [eventCall,has] using stuck

theorem just_events (just : RunsJust (fun l => eachEvent scripts data type hit counts 0 l st) (ranOf type)
      (fun handler st => eventEffect scripts handler st data) should l) :
    (∀ trig ∈ l, eventHit hit trig = some (should trig)) ∨ ∃ trig ∈ l, should trig = true ∧ eventHit hit trig ≠ some false := by
  refine runs_agree (fun l => eachEvent_round type hit counts 0 l st) just ?_
  intro l next out ended
  rw [eachEvent_round] at ended
  exact round_shows rfl (ranOf_append type) (eventCall_shows type counts) ended

end

theorem wanted_handled {subject : Option Str} {trig : IcsTrigger EventHandler} (right : wanted subject trig = true) : trig.handler.isSome :=
  (Bool.and_eq_true_iff.mp right).1

-- The test of a tell trigger is the opposite of the one for its siblings.
theorem tell_test (trig : IcsTrigger EventHandler) : eventHit (tellHit data) trig = some (wanted (some data.txtPacket) trig) ↔ trig.handler = none := by
  obtain ⟨result,returns⟩ := matchwilds_total (some data.txtPacket) trig.mask
  simp only [eventHit,tellHit,wanted,returns,Option.bind_eq_bind,Option.bind_some,Option.map_some,Option.some.injEq]
  cases trig.handler with
  | none => simp
  | some handler =>
      by_cases zero : result = 0
      · simp [zero]
      · simp [zero]

theorem tell_passes {trig : IcsTrigger EventHandler} (right : wanted (some data.txtPacket) trig = true) :
    eventHit (tellHit data) trig = some false := by
  have found := of_decide_eq_true (Bool.and_eq_true_iff.mp right).2
  simp [eventHit,tellHit,found]

theorem tell_just (buffer : Str) : RunsJust (tellLoop scripts st ⟨buffer,tssvSplit buffer⟩) (ranOf .tell)
    (fun handler st => eventEffect scripts handler st ⟨buffer,tssvSplit buffer⟩) (wanted (some buffer)) l ↔ ∀ trig ∈ l, trig.handler = none := by
  constructor
  · intro just trig member
    rcases just_events .tell true just with agree | ⟨other,-,right,hits⟩
    · exact (tell_test trig).mp (agree trig member)
    · exact absurd (tell_passes right) hits
  · intro unhandled
    refine events_just .tell true (fun _ _ => wanted_handled) ?_
    intro trig member
    exact (tell_test trig).mpr (unhandled trig member)

theorem notify_blank (blank : ∀ c ∈ buffer, isBlank c = true) (trig : IcsTrigger EventHandler) :
    eventHit (notifyHit ⟨buffer,tssvSplit buffer⟩) trig = none := by
  simp [eventHit,notifyHit,token,split_none.mpr blank]

theorem notify_test (split : tssvSplit buffer = some found) (trig : IcsTrigger EventHandler) :
    eventHit (notifyHit ⟨buffer,tssvSplit buffer⟩) trig = some (wanted (runs isBlank buffer)[1]? trig) ↔
      ((runs isBlank buffer).length = 1 → ¬Closed buffer → trig.handler = none ∨ matchwilds (some []) trig.mask ≠ some 0) := by
  obtain ⟨result,returns⟩ := matchwilds_total (runs isBlank buffer)[1]? trig.mask
  have second := token_second split
  rw [← split] at second
  by_cases extra : (runs isBlank buffer).length = 1 ∧ ¬Closed buffer
  · obtain ⟨empty,tried⟩ := matchwilds_total (some []) trig.mask
    have none' : (runs isBlank buffer)[1]? = none := by simp [extra.1]
    have unwanted : wanted none trig = false := by simp [wanted,matchwilds]
    rw [none',unwanted]
    simp only [eventHit,notifyHit,second,if_pos extra,tried,Option.bind_eq_bind,Option.bind_some,Option.map_some,Option.some.injEq]
    cases trig.handler <;> simp [extra]
  · simp only [eventHit,notifyHit,second,if_neg extra,returns,wanted,Option.bind_eq_bind,Option.bind_some,Option.map_some,Option.some.injEq]
    refine iff_of_true (by simp [Bool.and_comm]) ?_
    intro one' open'
    exact absurd ⟨one',open'⟩ extra

theorem notify_just (buffer : Str) : RunsJust (notifyLoop scripts st ⟨buffer,tssvSplit buffer⟩) (ranOf .notify)
    (fun handler st => eventEffect scripts handler st ⟨buffer,tssvSplit buffer⟩) (wanted (runs isBlank buffer)[1]?) l ↔ NotifyFits l buffer := by
  by_cases blank : ∀ c ∈ buffer, isBlank c = true
  · have untested := notify_blank blank
    have word : runs isBlank buffer = [] := by simpa using runs_separators isBlank buffer [] blank
    constructor
    · intro just trig member
      rcases just_events .notify false just with agree | ⟨other,-,right,-⟩
      · have tested := agree trig member
        rw [untested] at tested
        cases tested
      · rw [word] at right
        simp [wanted,matchwilds] at right
    · intro fits
      cases l with
      | nil => exact events_just .notify false (by simp) (by simp)
      | cons trig rest =>
          obtain ⟨⟨c,inside,plain⟩,-⟩ := fits trig (by simp)
          rw [blank c inside] at plain
          cases plain
  · have word : ∃ c ∈ buffer, isBlank c = false := by simpa using blank
    obtain ⟨found,split⟩ := Option.ne_none_iff_exists'.mp (fun none => blank (split_none.mp none))
    constructor
    · intro just trig member
      refine ⟨word,?_⟩
      rcases just_events .notify false just with agree | ⟨other,inside,right,-⟩
      · exact (notify_test split trig).mp (agree trig member)
      · intro one' _
        have none' : (runs isBlank buffer)[1]? = none := by simp [one']
        rw [none'] at right
        simp [wanted,matchwilds] at right
    · intro fits
      refine events_just .notify false (fun _ _ => wanted_handled) ?_
      intro trig member
      exact (notify_test split trig).mpr (fits trig member).2

end

-- Over every table and every line.
theorem matching_run (scripts : Nat → Session → IcsData → Option (List Str)) (st : Session) (buffer : Str) :
    Dispatches scripts st buffer ↔
      (∀ trig ∈ st.ics.triggerTable.events .tell, trig.handler = none) ∧ NotifyFits (st.ics.triggerTable.events .notify) buffer := by
  constructor
  · intro dispatches
    exact ⟨(tell_just buffer).mp dispatches.tell,(notify_just buffer).mp dispatches.notify⟩
  · rintro ⟨tells,notifies⟩
    exact ⟨msg_just buffer,(tell_just buffer).mpr tells,(notify_just buffer).mpr notifies⟩

def tellAnyone : IcsTriggerTable :=
  ⟨[],fun type => if type = .tell then [eventBuiltin (some ['*']) .icsInternalAnnounceNewGame] else []⟩

-- A trigger for every tell hears none.
theorem tell_unheard : ¬Dispatches (fun _ _ _ => none) ((Watch.start none []).session.setTable tellAnyone) "bob tells you: hi".toList := by
  intro dispatches
  have unhandled := (tell_just _).mp dispatches.tell (eventBuiltin (some ['*']) .icsInternalAnnounceNewGame) (by decide)
  cases unhandled

end Trollbot.Ics
