import Trollbot.Botnick

-- What every handler that a message reaches does, the dispatch of the message does.
namespace Trollbot.Irc
open CBuffer IrcParse

-- The lines of irc_in, one after the other.
def hearLines (scripts : Nat → Network → IrcData → Result) : List Str → Network → Result
  | [],net => some (net,[])
  | line :: rest,net => andThen (parseIrcLine scripts net line) (hearLines scripts rest)

-- The triggers that a command gets to: those of a list, or the RAW ones of its own name.
def GetsTo (command : Str) (type : TrigType) (mask : Str) : Prop :=
  (command = "PRIVMSG".toList ∧ type ∈ [.msg,.msgm,.pub,.pubm]) ∨ (command = "JOIN".toList ∧ type = .join) ∨
    (command = "PART".toList ∧ type = .part) ∨ (command = "TOPIC".toList ∧ type = .topc) ∨ (command = "KICK".toList ∧ type = .kick) ∨
    (command = "NOTICE".toList ∧ type = .notc) ∨ (type = .raw ∧ mask = command)

-- The triggers are as they were, up to their use counts.
def SameTriggers (net later : Network) : Prop := ∀ type, (later.trigs type).items.map triggerKey = (net.trigs type).items.map triggerKey

-- `bound` tells of every trigger which handler it has.
def AllBound (bound : TrigType → Str → Option Handler → Prop) (net : Network) : Prop :=
  ∀ type, ∀ key ∈ (net.trigs type).items.map triggerKey, bound type key.1 key.2

theorem SameTriggers.allBound (same : SameTriggers net later) (fits : AllBound bound net) : AllBound bound later := by
  intro type key member
  rw [same type] at member
  exact fits type key member

theorem AllBound.each (fits : AllBound bound net) (type : TrigType) : ∀ trig ∈ (net.trigs type).items, bound type trig.mask trig.handler :=
  fun trig member => fits type (triggerKey trig) (List.mem_map_of_mem member)

-- `does` relates a network to what is sent and to the network afterwards.
structure Rule (scripts : Nat → Network → IrcData → Result) (command : Str) (data : IrcData)
    (bound : TrigType → Str → Option Handler → Prop) (does : Network → List Output → Network → Prop) : Prop where
  idle : ∀ net, does net [] net
  andThen : ∀ net out middle more later, does net out middle → does middle more later → does net (out ++ more) later
  same : ∀ net out later, does net out later → SameTriggers net later
  ran : ∀ net type place mask handler later out, bound type mask (some handler) → GetsTo command type mask →
    runHandler scripts net data type place handler = some (later,out) → does net out later

section
variable {scripts : Nat → Network → IrcData → Result} {data : IrcData} {bound : TrigType → Str → Option Handler → Prop}
  {does : Network → List Output → Network → Prop} (rule : Rule scripts data.command data bound does)
include rule

theorem Rule.next {second : Network → Result} (first : ∀ middle sent, result = some (middle,sent) → does net sent middle)
    (next : ∀ middle later out, SameTriggers net middle → second middle = some (later,out) → does middle out later)
    (done : Irc.andThen result second = some (later,out)) : does net out later := by
  obtain ⟨⟨middle,sent⟩,ran,done⟩ := Option.bind_eq_some_iff.mp done
  obtain ⟨⟨last,more⟩,again,done⟩ := Option.bind_eq_some_iff.mp done
  cases done
  have kept := first middle sent ran
  exact rule.andThen net sent middle more later kept (next middle later more (rule.same net sent middle kept) again)

theorem Rule.trigger {trig : Trigger Handler} (known : bound type trig.mask trig.handler) (gets : GetsTo data.command type trig.mask)
    (done : runTrigger scripts net data type place trig = some (later,out)) : does net out later := by
  unfold runTrigger at done
  split at done
  · cases done
    exact rule.idle net
  · rename_i handler handles
    exact rule.ran net type place trig.mask handler later out (handles ▸ known) gets done

theorem Rule.tried {trig : Trigger Handler} (known : bound type trig.mask trig.handler) (gets : GetsTo data.command type trig.mask)
    (done : tryTrigger scripts net data type place trig found = some (later,out)) : does net out later := by
  unfold tryTrigger at done
  split at done
  · exact rule.trigger known gets done
  · cases done
    exact rule.idle net

theorem Rule.each {trigs : List (Trigger Handler)} (known : ∀ trig ∈ trigs, bound type trig.mask trig.handler)
    (gets : ∀ mask, GetsTo data.command type mask)
    (done : eachTrigger scripts data type hit place trigs net = some (later,out)) : does net out later := by
  induction trigs generalizing place net later out with
  | nil =>
      cases done
      exact rule.idle net
  | cons trig rest ih =>
      obtain ⟨found,-,done⟩ := Option.bind_eq_some_iff.mp done
      exact rule.next (fun _ _ => rule.tried (known trig (by simp)) (gets trig.mask))
        (fun _ _ _ _ => ih fun other member => known other (by simp [member])) done

theorem Rule.all (fits : AllBound bound net) (gets : ∀ mask, GetsTo data.command type mask)
    (done : allTriggers scripts net data type hit = some (later,out)) : does net out later := rule.each (fits.each type) gets done

theorem Rule.pub {trigs : List (Trigger Handler)} (known : ∀ trig ∈ trigs, bound .pub trig.mask trig.handler)
    (gets : ∀ mask, GetsTo data.command .pub mask)
    (done : pubTrigger scripts data str place trigs net = some (later,out)) : does net out later := by
  induction trigs generalizing place with
  | nil =>
      cases done
      exact rule.idle net
  | cons trig rest ih =>
      rw [pubTrigger] at done
      split at done
      · exact rule.trigger (known trig (by simp)) (gets trig.mask) done
      · exact ih (fun other member => known other (by simp [member])) done

theorem Rule.privmsg (fits : AllBound bound net) (named : data.command = "PRIVMSG".toList)
    (done : matchPrivmsg scripts net data = some (later,out)) : does net out later := by
  have gets : ∀ type ∈ [TrigType.msg,.msgm,.pub,.pubm], ∀ mask, GetsTo data.command type mask :=
    fun type member mask => .inl ⟨named,member⟩
  obtain ⟨target,-,done⟩ := Option.bind_eq_some_iff.mp done
  cases target with
  | none =>
      cases done
      exact rule.idle net
  | some target =>
      obtain ⟨botnick,-,done⟩ := Option.bind_eq_some_iff.mp done
      split at done
      · exact rule.next (fun _ _ => rule.all fits (gets .msg (by simp)))
          (fun _ _ _ same => rule.all (same.allBound fits) (gets .msgm (by simp))) done
      · refine rule.next ?_ (fun _ _ _ same => rule.all (same.allBound fits) (gets .pubm (by simp))) done
        intro middle sent ran
        unfold pubTriggers at ran
        split at ran
        · cases ran
          exact rule.idle net
        · exact rule.pub (fits.each .pub) (gets .pub (by simp)) ran

theorem Rule.join (fits : AllBound bound net) (named : data.command = "JOIN".toList)
    (done : matchJoin scripts net data = some (later,out)) : does net out later := by
  unfold matchJoin at done
  split at done
  · cases done
    exact rule.idle net
  · obtain ⟨chan,-,done⟩ := Option.bind_eq_some_iff.mp done
    obtain ⟨pre,-,done⟩ := Option.bind_eq_some_iff.mp done
    obtain ⟨trig,first,done⟩ := Option.bind_eq_some_iff.mp done
    exact rule.tried (fits.each .join trig (List.mem_of_mem_head? first)) (.inr (.inl ⟨named,rfl⟩)) done

theorem Rule.raw {trigs : List (Trigger Handler)} (known : ∀ trig ∈ trigs, bound .raw trig.mask trig.handler)
    (done : eachRaw scripts data place trigs net = some (later,out)) : does net out later := by
  induction trigs generalizing place net later out with
  | nil =>
      cases done
      exact rule.idle net
  | cons trig rest ih =>
      have more : ∀ trig ∈ rest, bound .raw trig.mask trig.handler := fun other member => known other (by simp [member])
      rw [eachRaw] at done
      split at done
      · rename_i matched
        obtain ⟨handler,handles,done⟩ := Option.bind_eq_some_iff.mp done
        refine rule.next ?_ (fun _ _ _ _ => ih more) done
        intro middle sent ran
        exact rule.ran net .raw place trig.mask handler middle sent (handles ▸ known trig (by simp))
          (.inr (.inr (.inr (.inr (.inr (.inr ⟨rfl,matched⟩)))))) ran
      · exact ih more done

theorem Rule.triggers (fits : AllBound bound net) (done : triggerMatch scripts net data = some (later,out)) : does net out later := by
  unfold triggerMatch at done
  split at done
  · exact rule.privmsg fits (by assumption) done
  split at done
  · exact rule.join fits (by assumption) done
  split at done
  · rename_i part
    exact rule.all fits (fun _ => .inr (.inr (.inl ⟨part,rfl⟩))) done
  split at done
  · cases done
    exact rule.idle net
  split at done
  · rename_i topic
    exact rule.all fits (fun _ => .inr (.inr (.inr (.inl ⟨topic,rfl⟩)))) done
  split at done
  · rename_i kick
    exact rule.all fits (fun _ => .inr (.inr (.inr (.inr (.inl ⟨kick,rfl⟩))))) done
  split at done
  · rename_i notice
    exact rule.all fits (fun _ => .inr (.inr (.inr (.inr (.inr (.inl ⟨notice,rfl⟩)))))) done
  · exact rule.raw (fits.each .raw) done

-- What one of the handlers brings about where `Q` holds, and the others keep, holds afterwards.
theorem Rule.raw_brings {trigs : List (Trigger Handler)} {P Q : Network → Prop} (known : ∀ trig ∈ trigs, bound .raw trig.mask trig.handler)
    (stays : ∀ net out later, does net out later → Q net → Q later) (keeps : ∀ net out later, does net out later → P net → P later)
    (brings : ∀ net place later out, Q net → runHandler scripts net data .raw place handler = some (later,out) → P later)
    (member : (data.command,some handler) ∈ trigs.map triggerKey) (start : Q net)
    (done : eachRaw scripts data place trigs net = some (later,out)) : P later := by
  induction trigs generalizing place net later out with
  | nil => cases member
  | cons trig rest ih =>
      have more : ∀ trig ∈ rest, bound .raw trig.mask trig.handler := fun other member => known other (by simp [member])
      rw [List.map_cons,List.mem_cons] at member
      rw [eachRaw] at done
      rcases member with here | behind
      · obtain ⟨is,handles⟩ := Prod.mk.inj here
        rw [if_pos is.symm,← handles] at done
        obtain ⟨same,⟨⟩,done⟩ := Option.bind_eq_some_iff.mp done
        obtain ⟨⟨middle,sent⟩,ran,done⟩ := Option.bind_eq_some_iff.mp done
        obtain ⟨⟨last,others⟩,again,done⟩ := Option.bind_eq_some_iff.mp done
        cases done
        exact keeps middle others later (rule.raw more again) (brings net place middle sent start ran)
      · split at done
        · rename_i matched
          obtain ⟨other,handles,done⟩ := Option.bind_eq_some_iff.mp done
          obtain ⟨⟨middle,sent⟩,ran,done⟩ := Option.bind_eq_some_iff.mp done
          obtain ⟨⟨last,others⟩,again,done⟩ := Option.bind_eq_some_iff.mp done
          cases done
          have moved := rule.ran net .raw place trig.mask other middle sent (handles ▸ known trig (by simp))
            (.inr (.inr (.inr (.inr (.inr (.inr ⟨rfl,matched⟩)))))) ran
          exact ih more behind (stays net sent middle moved start) again
        · exact ih more behind start done

theorem Rule.each_brings {trigs : List (Trigger Handler)} {P Q : Network → Prop} (known : ∀ trig ∈ trigs, bound type trig.mask trig.handler)
    (gets : ∀ mask, GetsTo data.command type mask) (stays : ∀ net out later, does net out later → Q net → Q later)
    (keeps : ∀ net out later, does net out later → P net → P later)
    (brings : ∀ net place later out, Q net → runHandler scripts net data type place handler = some (later,out) → P later)
    (member : ∃ trig ∈ trigs, trig.handler = some handler ∧ hit trig = some true) (start : Q net)
    (done : eachTrigger scripts data type hit place trigs net = some (later,out)) : P later := by
  induction trigs generalizing place net later out with
  | nil => simp at member
  | cons trig rest ih =>
      have more : ∀ trig ∈ rest, bound type trig.mask trig.handler := fun other member => known other (by simp [member])
      obtain ⟨found,tested,done⟩ := Option.bind_eq_some_iff.mp done
      obtain ⟨⟨middle,sent⟩,ran,done⟩ := Option.bind_eq_some_iff.mp done
      obtain ⟨⟨last,others⟩,again,done⟩ := Option.bind_eq_some_iff.mp done
      cases done
      obtain ⟨other,inside,handles,hits⟩ := member
      rcases List.mem_cons.mp inside with rfl | behind
      · obtain rfl : found = true := Option.some.inj (tested.symm.trans hits)
        rw [tryTrigger,if_pos rfl,runTrigger,handles] at ran
        exact keeps middle others later (rule.each more gets again) (brings net place middle sent start ran)
      · have moved := rule.tried (known trig (by simp)) (gets trig.mask) ran
        exact ih more ⟨other,behind,handles,hits⟩ (stays net sent middle moved start) again

end

-- Where no trigger passes the test, nothing is run.
theorem each_idle {scripts : Nat → Network → IrcData → Result} (missed : ∀ trig ∈ trigs, hit trig ≠ some true)
    (done : eachTrigger scripts data type hit place trigs net = some (later,out)) : later = net ∧ out = [] := by
  induction trigs generalizing place later out with
  | nil =>
      cases done
      exact ⟨rfl,rfl⟩
  | cons trig rest ih =>
      obtain ⟨found,tested,done⟩ := Option.bind_eq_some_iff.mp done
      obtain ⟨⟨middle,sent⟩,ran,done⟩ := Option.bind_eq_some_iff.mp done
      obtain ⟨⟨last,others⟩,again,done⟩ := Option.bind_eq_some_iff.mp done
      cases done
      cases found with
      | true => exact absurd tested (missed trig (by simp))
      | false =>
          cases ran
          obtain ⟨rfl,rfl⟩ := ih (fun other member => missed other (by simp [member])) again
          exact ⟨rfl,rfl⟩

end Trollbot.Irc
