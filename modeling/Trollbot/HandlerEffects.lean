import Trollbot.Bindings
import Trollbot.Foundation.Runs
import Trollbot.Tracking

-- What each handler does to the records' names, topics and modes, and what it sends.
namespace Trollbot.Irc
open CBuffer IrcParse
open Bindings (findPlace_some)

def Channel.view (chan : Channel) : Option Str × Option Str × Option Str := (chan.key,chan.topic,chan.chanmode)

-- The records are as they were, and nothing is sent.
def Unseen (net : Network) (out : List Output) (later : Network) : Prop :=
  later.chans.map Channel.view = net.chans.map Channel.view ∧ out = []

theorem findPlace_none {test : α → Option Bool} {l : List α} : findPlace test l = some none ↔ ∀ x ∈ l, test x = some false := by
  induction l with
  | nil => simp [findPlace]
  | cons first more ih =>
      simp only [findPlace,Option.bind_eq_bind,List.forall_mem_cons,← ih]
      cases test first with
      | none => simp
      | some passes =>
          cases passes <;> simp

theorem found_key {chan : Channel} (hit : sameText chan.name name = some true) : ∃ n, name = some n ∧ chan.key = some (fold n) := by
  obtain ⟨own,named,hit⟩ := Option.bind_eq_some_iff.mp hit
  obtain ⟨n,rfl,hit⟩ := Option.bind_eq_some_iff.mp hit
  refine ⟨n,rfl,?_⟩
  have same : tstrcasecmp own n = 0 := by simpa using hit
  rw [Channel.key,named,Option.map_some,tstrcasecmp_iff.mp same]

theorem passed_key {chan : Channel} (missed : sameText chan.name name = some false) : ∀ n, name = some n → chan.key ≠ some (fold n) := by
  rintro n rfl same
  obtain ⟨own,named,missed⟩ := Option.bind_eq_some_iff.mp missed
  rw [Channel.key,named,Option.map_some,Option.some.injEq] at same
  simp [same] at missed

-- A handler's search, where it comes back: no record has the name, or the first one with it is changed.
theorem onChannel_found {f : Channel → Option (Channel × List Output)}
    (done : onChannel net (findPlace (fun chan => sameText chan.name name) net.chans) f = some (later,out)) :
    later = net ∧ (∀ n, name = some n → ∀ chan ∈ net.chans, chan.key ≠ some (fold n)) ∧ (name = none → net.chans = []) ∨
      ∃ n front chan rest changed, name = some n ∧ net.chans = front ++ chan :: rest ∧ (∀ other ∈ front, other.key ≠ some (fold n)) ∧
        chan.key = some (fold n) ∧ f chan = some (changed,out) ∧ later = { net with chans := front ++ changed :: rest } := by
  cases searched : findPlace (fun chan => sameText chan.name name) net.chans with
  | none =>
      rw [searched] at done
      cases done
  | some found =>
      rw [searched] at done
      cases found with
      | none =>
          cases done
          have missed := findPlace_none.mp searched
          refine .inl ⟨rfl,fun n named chan member => passed_key (missed chan member) n named,?_⟩
          rintro rfl
          refine List.eq_nil_iff_forall_not_mem.mpr ?_
          intro chan member
          have compared := missed chan member
          rw [sameText] at compared
          obtain ⟨own,-,compared⟩ := Option.bind_eq_some_iff.mp compared
          cases compared
      | some place =>
          obtain ⟨front,chan,rest,split,rfl,passed,hit⟩ := findPlace_some.mp searched
          obtain ⟨n,rfl,key⟩ := found_key hit
          obtain ⟨chan',here,done⟩ := Option.bind_eq_some_iff.mp done
          obtain ⟨⟨changed,sent⟩,ran,done⟩ := Option.bind_eq_some_iff.mp done
          cases done
          have same : chan' = chan := by simpa [split] using here.symm
          subst same
          refine .inr ⟨n,front,chan',rest,changed,rfl,split,fun other member => passed_key (passed other member) n rfl,key,ran,?_⟩
          simp [Network.modifyChan,split,List.modify_eq_take_cons_drop]

theorem onChannel_run {f : Channel → Option (Channel × List Output)} (done : onChannel net found f = some (later,out)) :
    later = net ∧ out = [] ∨
      ∃ place chan changed, net.chans[place]? = some chan ∧ f chan = some (changed,out) ∧ later = net.modifyChan place (fun _ => changed) := by
  obtain ⟨place,-,done⟩ := Option.bind_eq_some_iff.mp done
  cases place with
  | none =>
      cases done
      exact .inl ⟨rfl,rfl⟩
  | some place =>
      obtain ⟨chan,here,done⟩ := Option.bind_eq_some_iff.mp done
      obtain ⟨⟨changed,sent⟩,ran,done⟩ := Option.bind_eq_some_iff.mp done
      cases done
      exact .inr ⟨place,chan,changed,here,ran,rfl⟩

theorem modifyChan_views {net : Network} {chan changed : Channel} (here : net.chans[place]? = some chan) (same : changed.view = chan.view) :
    (net.modifyChan place (fun _ => changed)).chans.map Channel.view = net.chans.map Channel.view := by
  have given : (net.chans.map Channel.view)[place]? = some changed.view := by simp [here,same]
  have put : (net.chans.modify place (fun _ => changed)).map Channel.view = (net.chans.map Channel.view).set place changed.view :=
    map_replace (fun _ => rfl) net.chans place
  obtain ⟨inside,at'⟩ := List.getElem?_eq_some_iff.mp given
  rw [Network.modifyChan,put,← at',List.set_getElem_self]

theorem onChannel_views {f : Channel → Option (Channel × List Output)}
    (keeps : ∀ chan changed sent, f chan = some (changed,sent) → changed.view = chan.view) (done : onChannel net found f = some (later,out)) :
    later.chans.map Channel.view = net.chans.map Channel.view := by
  rcases onChannel_run done with ⟨rfl,-⟩ | ⟨place,chan,changed,here,ran,rfl⟩
  · rfl
  · exact modifyChan_views here (keeps chan changed out ran)

theorem onChannel_quiet {f : Channel → Option (Channel × List Output)} (quiet : ∀ chan changed sent, f chan = some (changed,sent) → sent = [])
    (done : onChannel net found f = some (later,out)) : out = [] := by
  rcases onChannel_run done with ⟨-,none'⟩ | ⟨place,chan,changed,-,ran,-⟩
  · exact none'
  · exact quiet chan changed out ran

theorem onChannel_unseen {f : Channel → Option (Channel × List Output)}
    (unseen : ∀ chan changed sent, f chan = some (changed,sent) → changed.view = chan.view ∧ sent = [])
    (done : onChannel net found f = some (later,out)) : Unseen net out later :=
  ⟨onChannel_views (fun chan changed sent ran => (unseen chan changed sent ran).1) done,
    onChannel_quiet (fun chan changed sent ran => (unseen chan changed sent ran).2) done⟩

theorem mapM_views {f : Channel → Option Channel} (keeps : ∀ chan changed, f chan = some changed → changed.view = chan.view) {chans later : List Channel}
    (done : chans.mapM f = some later) : later.map Channel.view = chans.map Channel.view := by
  induction chans generalizing later with
  | nil =>
      cases done
      rfl
  | cons chan rest ih =>
      rw [List.mapM_cons] at done
      obtain ⟨first,ran,done⟩ := Option.bind_eq_some_iff.mp done
      obtain ⟨others,behind,done⟩ := Option.bind_eq_some_iff.mp done
      cases done
      rw [List.map_cons,List.map_cons,keeps chan first ran,ih behind]

theorem eachChannel_unseen {f : Channel → Option Channel} (keeps : ∀ chan changed, f chan = some changed → changed.view = chan.view)
    (done : eachChannel net f = some (later,out)) : Unseen net out later := by
  obtain ⟨chans,changed,done⟩ := Option.bind_eq_some_iff.mp done
  cases done
  exact ⟨mapM_views keeps changed,rfl⟩

theorem delUser_view (chan : Channel) (found : Option Nat) : (chan.delUser found).view = chan.view := by
  cases found <;> rfl

theorem newJoin_effect (done : newJoin net data = some (later,out)) :
    later.chans.map Channel.view = net.chans.map Channel.view ∧
      (out = [] ∨ ∃ chan ∈ net.chans, ∃ name, chan.name = some name ∧ out = joinLines name) := by
  obtain ⟨pre,-,done⟩ := Option.bind_eq_some_iff.mp done
  rcases onChannel_run done with ⟨rfl,rfl⟩ | ⟨place,chan,changed,here,ran,rfl⟩
  · exact ⟨rfl,.inl rfl⟩
  · obtain ⟨found,-,ran⟩ := Option.bind_eq_some_iff.mp ran
    obtain ⟨own,-,ran⟩ := Option.bind_eq_some_iff.mp ran
    obtain ⟨name,named,ran⟩ := Option.bind_eq_some_iff.mp ran
    cases ran
    have kept : (chan.enter pre.nick found).1.name = chan.name := by cases found <;> rfl
    refine ⟨modifyChan_views here ?_,?_⟩
    · cases found <;> rfl
    · cases own with
      | true => exact .inr ⟨chan,List.mem_of_getElem? here,name,kept.symm.trans named,rfl⟩
      | false => exact .inl rfl

theorem newPart_effect (done : newPart net data = some (later,out)) : Unseen net out later := by
  obtain ⟨pre,-,done⟩ := Option.bind_eq_some_iff.mp done
  obtain ⟨name,-,done⟩ := Option.bind_eq_some_iff.mp done
  refine onChannel_unseen ?_ done
  intro chan changed sent ran
  obtain ⟨found,-,ran⟩ := Option.bind_eq_some_iff.mp ran
  cases ran
  exact ⟨delUser_view chan found,rfl⟩

theorem newQuit_effect (done : newQuit net data = some (later,out)) : Unseen net out later := by
  obtain ⟨pre,-,done⟩ := Option.bind_eq_some_iff.mp done
  refine eachChannel_unseen ?_ done
  intro chan changed ran
  obtain ⟨found,-,ran⟩ := Option.bind_eq_some_iff.mp ran
  cases ran
  exact delUser_view chan found

-- The bot comes back where it is kicked itself.
theorem newKick_effect (done : newKick net data = some (later,out)) :
    later.chans.map Channel.view = net.chans.map Channel.view ∧
      (out = [] ∨ ∃ name, slot data.cParams 0 = some (some name) ∧ out = [tsocketPrintf ("JOIN ".toList ++ name)]) := by
  obtain ⟨kicked,-,done⟩ := Option.bind_eq_some_iff.mp done
  obtain ⟨name,read,done⟩ := Option.bind_eq_some_iff.mp done
  obtain ⟨nick,-,done⟩ := Option.bind_eq_some_iff.mp done
  have keeps : ∀ (chan : Channel) changed sent, (do
      let found ← channelChannelUserFind chan kicked
      some (chan.delUser found,([] : List Output))) = some (changed,sent) → changed.view = chan.view := by
    intro chan changed sent ran
    obtain ⟨found,-,ran⟩ := Option.bind_eq_some_iff.mp ran
    cases ran
    exact delUser_view chan found
  dsimp only at done
  split at done
  all_goals
    obtain ⟨rejoin,made,done⟩ := Option.bind_eq_some_iff.mp done
    obtain ⟨⟨changed,sent⟩,left,done⟩ := Option.bind_eq_some_iff.mp done
    obtain ⟨pre,-,done⟩ := Option.bind_eq_some_iff.mp done
    cases done
    refine ⟨onChannel_views keeps left,?_⟩
  · obtain ⟨own,rfl,same⟩ := Option.map_eq_some_iff.mp made
    exact .inr ⟨own,read,same.symm⟩
  · cases made
    exact .inl rfl

theorem trollTrigUpdateNick_effect (done : trollTrigUpdateNick net data = some (later,out)) : Unseen net out later := by
  obtain ⟨pre,-,done⟩ := Option.bind_eq_some_iff.mp done
  refine eachChannel_unseen ?_ done
  intro chan changed ran
  obtain ⟨found,-,ran⟩ := Option.bind_eq_some_iff.mp ran
  cases found with
  | none =>
      cases ran
      rfl
  | some place =>
      obtain ⟨nick,-,ran⟩ := Option.bind_eq_some_iff.mp ran
      cases ran
      rfl

theorem trollParseWho_effect (done : trollParseWho net data = some (later,out)) : Unseen net out later := by
  obtain ⟨name,-,done⟩ := Option.bind_eq_some_iff.mp done
  refine onChannel_unseen ?_ done
  intro chan changed sent ran
  obtain ⟨nick,-,ran⟩ := Option.bind_eq_some_iff.mp ran
  obtain ⟨found,-,ran⟩ := Option.bind_eq_some_iff.mp ran
  cases found with
  | some place =>
      cases ran
      exact ⟨rfl,rfl⟩
  | none =>
      obtain ⟨ident,-,ran⟩ := Option.bind_eq_some_iff.mp ran
      obtain ⟨host,-,ran⟩ := Option.bind_eq_some_iff.mp ran
      cases ran
      exact ⟨rfl,rfl⟩

theorem populateUser_view (done : populateUser chan ptr = some later) : later.view = chan.view := by
  obtain ⟨found,-,done⟩ := Option.bind_eq_some_iff.mp done
  cases done
  cases found <;> rfl

-- A channel without a record gets one behind the others, with its name.
theorem channelListPopulate_effect (done : channelListPopulate net data = some (later,out)) :
    (∃ more, later.chans.map Channel.view = net.chans.map Channel.view ++ more ∧
      (more = [] ∨ ∃ name, slot data.cParams 2 = some (some name) ∧ more = [(newChannel name).view])) ∧ out = [] := by
  have filled : ∀ {users : List Str} {chan chan' : Channel}, users.foldlM populateUser chan = some chan' → chan'.view = chan.view := by
    intro users chan chan' done
    have keeps : ∀ (first : Channel) ptr next, first.view = chan.view → populateUser first ptr = some next → next.view = chan.view :=
      fun first ptr next same taken => (populateUser_view taken).trans same
    exact Runs.foldlM_keeps (P := fun first : Channel => first.view = chan.view) keeps rfl done
  unfold channelListPopulate at done
  split at done
  · cases done
  · obtain ⟨name,read,done⟩ := Option.bind_eq_some_iff.mp done
    obtain ⟨found,-,done⟩ := Option.bind_eq_some_iff.mp done
    dsimp only at done
    split at done
    all_goals
      obtain ⟨⟨changed,place⟩,made,done⟩ := Option.bind_eq_some_iff.mp done
      obtain ⟨chan,here,done⟩ := Option.bind_eq_some_iff.mp done
      obtain ⟨users,-,done⟩ := Option.bind_eq_some_iff.mp done
      obtain ⟨chan',entered,done⟩ := Option.bind_eq_some_iff.mp done
      cases done
      refine ⟨?_,rfl⟩
    · cases made
      exact ⟨[],by rw [modifyChan_views here (filled entered),List.append_nil],.inl rfl⟩
    · obtain ⟨new,rfl,made⟩ := Option.map_eq_some_iff.mp made
      cases made
      exact ⟨_,by rw [modifyChan_views here (filled entered),List.map_append]; rfl,.inr ⟨new,read,rfl⟩⟩

theorem channelBanlistAdd_effect (done : channelBanlistAdd net data = some (later,out)) : Unseen net out later := by
  unfold channelBanlistAdd at done
  split at done
  · cases done
    exact ⟨rfl,rfl⟩
  · obtain ⟨name,-,done⟩ := Option.bind_eq_some_iff.mp done
    refine onChannel_unseen ?_ done
    intro chan changed sent ran
    obtain ⟨mask,-,ran⟩ := Option.bind_eq_some_iff.mp ran
    obtain ⟨known,-,ran⟩ := Option.bind_eq_some_iff.mp ran
    cases known with
    | some place =>
        cases ran
        exact ⟨rfl,rfl⟩
    | none =>
        obtain ⟨who,-,ran⟩ := Option.bind_eq_some_iff.mp ran
        obtain ⟨time,-,ran⟩ := Option.bind_eq_some_iff.mp ran
        obtain ⟨time',-,ran⟩ := Option.bind_eq_some_iff.mp ran
        cases ran
        exact ⟨rfl,rfl⟩

theorem modeStep_view (taken : modeStep data st c = some next) : next.chan.view = st.chan.view := by
  unfold modeStep at taken
  split at taken
  · cases taken
    rfl
  split at taken
  · cases taken
    rfl
  split at taken
  · obtain ⟨nick,-,taken⟩ := Option.bind_eq_some_iff.mp taken
    obtain ⟨found,-,taken⟩ := Option.bind_eq_some_iff.mp taken
    cases found with
    | none =>
        cases taken
        rfl
    | some place =>
        obtain ⟨cuser,-,taken⟩ := Option.bind_eq_some_iff.mp taken
        obtain ⟨modes,-,taken⟩ := Option.bind_eq_some_iff.mp taken
        cases taken
        rfl
  split at taken
  · unfold banMode at taken
    split at taken
    · obtain ⟨name,-,taken⟩ := Option.bind_eq_some_iff.mp taken
      obtain ⟨mask,-,taken⟩ := Option.bind_eq_some_iff.mp taken
      obtain ⟨pre,-,taken⟩ := Option.bind_eq_some_iff.mp taken
      cases taken
      rfl
    · obtain ⟨found,-,taken⟩ := Option.bind_eq_some_iff.mp taken
      cases taken
      cases found <;> rfl
  · cases taken
    rfl

theorem trollTrigUpdateMode_effect (done : trollTrigUpdateMode net data = some (later,out)) : Unseen net out later := by
  obtain ⟨name,-,done⟩ := Option.bind_eq_some_iff.mp done
  refine onChannel_unseen ?_ done
  intro chan changed sent ran
  obtain ⟨first,-,ran⟩ := Option.bind_eq_some_iff.mp ran
  obtain ⟨modes,-,ran⟩ := Option.bind_eq_some_iff.mp ran
  obtain ⟨st,steps,ran⟩ := Option.bind_eq_some_iff.mp ran
  cases ran
  have keeps : ∀ (st : ModeState) c next, st.chan.view = chan.view → modeStep data st c = some next → next.chan.view = chan.view :=
    fun st c next same taken => (modeStep_view taken).trans same
  exact ⟨Runs.foldlM_keeps (P := fun st : ModeState => st.chan.view = chan.view) keeps rfl steps,rfl⟩

-- The record that is found first gets the topic, the modes or the name; without one nothing is done.
def Sets (net : Network) (name : Option Str) (set : Channel → Channel) (later : Network) : Prop :=
  later = net ∧ (∀ n, name = some n → ∀ chan ∈ net.chans, chan.key ≠ some (fold n)) ∧ (name = none → net.chans = []) ∨
    ∃ n front chan rest, name = some n ∧ net.chans = front ++ chan :: rest ∧ (∀ other ∈ front, other.key ≠ some (fold n)) ∧
      chan.key = some (fold n) ∧ later = { net with chans := front ++ set chan :: rest }

theorem channelSetTopic_effect (done : channelSetTopic net data = some (later,out)) :
    (net.chans = [] ∧ later = net ∨ ∃ name, slot data.cParams 1 = some name ∧ Sets net name (fun chan => { chan with topic := data.restStr }) later) ∧
      out = [] := by
  unfold channelSetTopic at done
  split at done
  · rename_i none'
    cases done
    exact ⟨.inl ⟨none',rfl⟩,rfl⟩
  · obtain ⟨name,read,done⟩ := Option.bind_eq_some_iff.mp done
    refine ⟨.inr ⟨name,read,?_⟩,onChannel_quiet ?_ done⟩
    · rcases onChannel_found done with missed | ⟨n,front,chan,rest,changed,named,split,passed,key,ran,rfl⟩
      · exact .inl missed
      · cases ran
        exact .inr ⟨n,front,chan,rest,named,split,passed,key,rfl⟩
    · intro chan changed sent ran
      cases ran
      rfl

theorem trollTrigUpdateTopic_effect (done : trollTrigUpdateTopic net data = some (later,out)) :
    (net.chans = [] ∧ later = net ∨ ∃ name, slot data.cParams 0 = some name ∧ Sets net name (fun chan => { chan with topic := data.restStr }) later) ∧
      out = [] := by
  unfold trollTrigUpdateTopic at done
  split at done
  · rename_i none'
    cases done
    exact ⟨.inl ⟨none',rfl⟩,rfl⟩
  · obtain ⟨name,read,done⟩ := Option.bind_eq_some_iff.mp done
    simp only [sameText_comm name] at done
    refine ⟨.inr ⟨name,read,?_⟩,onChannel_quiet ?_ done⟩
    · rcases onChannel_found done with missed | ⟨n,front,chan,rest,changed,named,split,passed,key,ran,rfl⟩
      · exact .inl missed
      · cases ran
        exact .inr ⟨n,front,chan,rest,named,split,passed,key,rfl⟩
    · intro chan changed sent ran
      cases ran
      rfl

theorem channelSetModes_effect (done : channelSetModes net data = some (later,out)) :
    (net.chans = [] ∧ later = net ∨ ∃ name, slot data.cParams 1 = some name ∧ ∃ modes,
      Sets net name (fun chan => { chan with chanmode := if modes = [] then none else some modes }) later ∧
        ((∀ n, name = some n → ∀ chan ∈ net.chans, chan.key ≠ some (fold n)) ∨ slot data.cParams 2 = some (some modes))) ∧ out = [] := by
  unfold channelSetModes at done
  split at done
  · rename_i none'
    cases done
    exact ⟨.inl ⟨none',rfl⟩,rfl⟩
  · obtain ⟨name,read,done⟩ := Option.bind_eq_some_iff.mp done
    refine ⟨.inr ⟨name,read,?_⟩,onChannel_quiet ?_ done⟩
    · rcases onChannel_found done with missed | ⟨n,front,chan,rest,changed,named,split,passed,key,ran,rfl⟩
      · exact ⟨[],.inl missed,.inl missed.2.1⟩
      · obtain ⟨cell,given,ran⟩ := Option.bind_eq_some_iff.mp ran
        obtain ⟨modes,rfl,ran⟩ := Option.bind_eq_some_iff.mp ran
        cases ran
        exact ⟨modes,.inr ⟨n,front,chan,rest,named,split,passed,key,rfl⟩,.inr given⟩
    · intro chan changed sent ran
      obtain ⟨cell,-,ran⟩ := Option.bind_eq_some_iff.mp ran
      obtain ⟨modes,-,ran⟩ := Option.bind_eq_some_iff.mp ran
      cases ran
      rfl

theorem trollTrigChannelRedirect_effect (done : trollTrigChannelRedirect net data = some (later,out)) :
    (∃ name, slot data.cParams 2 = some name ∧ ∃ new, Sets net name (fun chan => { chan with name := new }) later ∧
      (later = net ∨ slot data.cParams 3 = some new)) ∧ out = [] := by
  obtain ⟨name,read,done⟩ := Option.bind_eq_some_iff.mp done
  refine ⟨⟨name,read,?_⟩,onChannel_quiet ?_ done⟩
  · rcases onChannel_found done with missed | ⟨n,front,chan,rest,changed,named,split,passed,key,ran,rfl⟩
    · exact ⟨none,.inl missed,.inl missed.1⟩
    · obtain ⟨new,given,ran⟩ := Option.bind_eq_some_iff.mp ran
      cases ran
      exact ⟨new,.inr ⟨n,front,chan,rest,named,split,passed,key,rfl⟩,.inr given⟩
  · intro chan changed sent ran
    obtain ⟨new,-,ran⟩ := Option.bind_eq_some_iff.mp ran
    cases ran
    rfl

end Trollbot.Irc
