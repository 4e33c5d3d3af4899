import Trollbot.DispatchRule
import Trollbot.Modes
import Trollbot.Foundation.Runs

-- The mode strings of the users are letters o and v and spaces whatever the handlers do.
namespace Trollbot.Irc
open CBuffer IrcParse Roster

theorem lettered_entered {chan : Channel} (lettered : chan.Lettered) (nick : Option Str) (found : Option Nat) :
    (chan.enter nick found).1.Lettered := by
  cases found with
  | some place => exact lettered
  | none =>
      intro cuser member
      rcases Chain.mem_add member with old | rfl
      · exact lettered cuser old
      · intro s same
        cases same

theorem lettered_left {chan : Channel} (lettered : chan.Lettered) (found : Option Nat) : (chan.delUser found).Lettered := by
  cases found with
  | none => exact lettered
  | some place => exact fun cuser member => lettered cuser (Chain.mem_del place member)

theorem prefixModes_sound (ptr : Str) : ModeLetters (if prefixModes ptr = [] then none else some (prefixModes ptr)) := by
  intro s same
  split at same
  · cases same
  · rename_i some'
    obtain rfl := Option.some.inj same
    refine ⟨some',?_⟩
    intro e member
    obtain ⟨c,-,rfl⟩ := List.mem_map.mp member
    split
    · exact .inl rfl
    · exact .inr (.inl rfl)

theorem populateUser_lettered {chan chan' : Channel} (lettered : chan.Lettered) (did : populateUser chan ptr = some chan') : chan'.Lettered := by
  obtain ⟨found,-,did⟩ := Option.bind_eq_some_iff.mp did
  cases did
  exact lettered_modify (lettered_entered lettered _ found) _ (fun _ _ => prefixModes_sound ptr)

theorem modeStep_lettered {st st' : ModeState} (lettered : st.chan.Lettered) (did : modeStep data st c = some st') : st'.chan.Lettered := by
  unfold modeStep at did
  split at did
  · cases did
    exact lettered
  split at did
  · cases did
    exact lettered
  split at did
  · rename_i letter
    obtain ⟨nick,-,did⟩ := Option.bind_eq_some_iff.mp did
    obtain ⟨found,-,did⟩ := Option.bind_eq_some_iff.mp did
    cases found with
    | none =>
        cases did
        exact lettered
    | some place =>
        obtain ⟨cuser,here,did⟩ := Option.bind_eq_some_iff.mp did
        obtain ⟨modes,changed,did⟩ := Option.bind_eq_some_iff.mp did
        cases did
        have sound := lettered cuser (List.mem_append_right _ (List.mem_of_getElem? here))
        rw [changeMode_sound sound] at changed
        cases changed
        exact lettered_modify lettered place (fun _ _ => put_sound _ sound letter)
  split at did
  · unfold banMode at did
    split at did
    · obtain ⟨name,-,did⟩ := Option.bind_eq_some_iff.mp did
      obtain ⟨mask,-,did⟩ := Option.bind_eq_some_iff.mp did
      obtain ⟨pre,-,did⟩ := Option.bind_eq_some_iff.mp did
      cases did
      exact lettered
    · obtain ⟨found,-,did⟩ := Option.bind_eq_some_iff.mp did
      cases did
      cases found <;> exact lettered
  · cases did
    exact lettered

section
variable {scripts : Nat → Network → IrcData → Result} {net next : Network} {data : IrcData} {out : List Output}
  (lettered : ∀ chan ∈ net.chans, Channel.Lettered chan)
include lettered

theorem newJoin_lettered (ran : newJoin net data = some (next,out)) : ∀ chan ∈ next.chans, Channel.Lettered chan := by
  obtain ⟨pre,-,ran⟩ := Option.bind_eq_some_iff.mp ran
  refine onChannel_all lettered ?_ ran
  intro chan chan' out own did
  obtain ⟨found,-,did⟩ := Option.bind_eq_some_iff.mp did
  obtain ⟨mine,-,did⟩ := Option.bind_eq_some_iff.mp did
  obtain ⟨name,-,did⟩ := Option.bind_eq_some_iff.mp did
  cases did
  exact lettered_modify (lettered_entered own _ found) _ (fun _ sound => sound)

theorem newPart_lettered (ran : newPart net data = some (next,out)) : ∀ chan ∈ next.chans, Channel.Lettered chan := by
  obtain ⟨pre,-,ran⟩ := Option.bind_eq_some_iff.mp ran
  obtain ⟨name,-,ran⟩ := Option.bind_eq_some_iff.mp ran
  refine onChannel_all lettered ?_ ran
  intro chan chan' out own did
  obtain ⟨found,-,did⟩ := Option.bind_eq_some_iff.mp did
  cases did
  exact lettered_left own found

theorem newQuit_lettered (ran : newQuit net data = some (next,out)) : ∀ chan ∈ next.chans, Channel.Lettered chan := by
  obtain ⟨pre,-,ran⟩ := Option.bind_eq_some_iff.mp ran
  refine eachChannel_all lettered ?_ ran
  intro chan chan' own did
  obtain ⟨found,-,did⟩ := Option.bind_eq_some_iff.mp did
  cases did
  exact lettered_left own found

theorem newKick_lettered (ran : newKick net data = some (next,out)) : ∀ chan ∈ next.chans, Channel.Lettered chan := by
  obtain ⟨kicked,-,ran⟩ := Option.bind_eq_some_iff.mp ran
  obtain ⟨name,-,ran⟩ := Option.bind_eq_some_iff.mp ran
  obtain ⟨nick,-,ran⟩ := Option.bind_eq_some_iff.mp ran
  have done : ∃ quiet, onChannel net (networkChannelFind net name) (fun chan => do
      let found ← channelChannelUserFind chan kicked
      some (chan.delUser found,[])) = some (next,quiet) := by
    dsimp only at ran
    split at ran
    · obtain ⟨rejoin,-,ran⟩ := Option.bind_eq_some_iff.mp ran
      obtain ⟨⟨left,quiet⟩,kick,ran⟩ := Option.bind_eq_some_iff.mp ran
      obtain ⟨pre,-,ran⟩ := Option.bind_eq_some_iff.mp ran
      cases ran
      exact ⟨quiet,kick⟩
    · obtain ⟨rejoin,-,ran⟩ := Option.bind_eq_some_iff.mp ran
      obtain ⟨⟨left,quiet⟩,kick,ran⟩ := Option.bind_eq_some_iff.mp ran
      obtain ⟨pre,-,ran⟩ := Option.bind_eq_some_iff.mp ran
      cases ran
      exact ⟨quiet,kick⟩
  obtain ⟨quiet,kick⟩ := done
  refine onChannel_all lettered ?_ kick
  intro chan chan' out own did
  obtain ⟨found,-,did⟩ := Option.bind_eq_some_iff.mp did
  cases did
  exact lettered_left own found

theorem trollTrigUpdateTopic_lettered (ran : trollTrigUpdateTopic net data = some (next,out)) : ∀ chan ∈ next.chans, Channel.Lettered chan := by
  simp only [trollTrigUpdateTopic] at ran
  split at ran
  · cases ran
    exact lettered
  · obtain ⟨name,-,ran⟩ := Option.bind_eq_some_iff.mp ran
    refine onChannel_all lettered ?_ ran
    intro chan chan' out own did
    cases did
    exact own

theorem trollParseWho_lettered (ran : trollParseWho net data = some (next,out)) : ∀ chan ∈ next.chans, Channel.Lettered chan := by
  obtain ⟨name,-,ran⟩ := Option.bind_eq_some_iff.mp ran
  refine onChannel_all lettered ?_ ran
  intro chan chan' out own did
  obtain ⟨nick,-,did⟩ := Option.bind_eq_some_iff.mp did
  obtain ⟨found,-,did⟩ := Option.bind_eq_some_iff.mp did
  cases found with
  | some place =>
      cases did
      exact own
  | none =>
      obtain ⟨ident,-,did⟩ := Option.bind_eq_some_iff.mp did
      obtain ⟨host,-,did⟩ := Option.bind_eq_some_iff.mp did
      cases did
      intro cuser member
      rcases Chain.mem_add member with old | rfl
      · exact own cuser old
      · intro s same
        cases same

theorem channelListPopulate_lettered (ran : channelListPopulate net data = some (next,out)) : ∀ chan ∈ next.chans, Channel.Lettered chan := by
  simp only [channelListPopulate] at ran
  split at ran
  · cases ran
  · obtain ⟨name,-,ran⟩ := Option.bind_eq_some_iff.mp ran
    obtain ⟨found,-,ran⟩ := Option.bind_eq_some_iff.mp ran
    have filled : ∀ (grown : Network) (place : Nat), (∀ chan ∈ grown.chans, Channel.Lettered chan) → (do
        let chan ← grown.chans[place]?
        let users ← data.rest.bind words
        let chan ← users.foldlM populateUser chan
        some (grown.modifyChan place (fun _ => chan),[])) = some (next,out) → ∀ chan ∈ next.chans, Channel.Lettered chan := by
      intro grown place all ran
      obtain ⟨chan,here,ran⟩ := Option.bind_eq_some_iff.mp ran
      obtain ⟨users,-,ran⟩ := Option.bind_eq_some_iff.mp ran
      obtain ⟨chan',walked,ran⟩ := Option.bind_eq_some_iff.mp ran
      cases ran
      exact replaced_all all (Runs.foldlM_keeps (fun _ _ _ sound did => populateUser_lettered sound did) (all chan (List.mem_of_getElem? here)) walked) place
    cases found with
    | some place => exact filled net place lettered ran
    | none =>
        obtain ⟨⟨grown,place⟩,entered,ran⟩ := Option.bind_eq_some_iff.mp ran
        obtain ⟨text,-,made⟩ := Option.map_eq_some_iff.mp entered
        cases made
        refine filled _ _ ?_ ran
        intro other member
        rcases List.mem_append.mp member with old | new
        · exact lettered other old
        · obtain rfl := List.mem_singleton.mp new
          simp [Channel.Lettered,newChannel,Chain.empty,Chain.whole]

theorem channelSetModes_lettered (ran : channelSetModes net data = some (next,out)) : ∀ chan ∈ next.chans, Channel.Lettered chan := by
  simp only [channelSetModes] at ran
  split at ran
  · cases ran
    exact lettered
  · obtain ⟨name,-,ran⟩ := Option.bind_eq_some_iff.mp ran
    refine onChannel_all lettered ?_ ran
    intro chan chan' out own did
    obtain ⟨cell,-,did⟩ := Option.bind_eq_some_iff.mp did
    obtain ⟨modes,-,did⟩ := Option.bind_eq_some_iff.mp did
    cases did
    exact own

theorem channelSetTopic_lettered (ran : channelSetTopic net data = some (next,out)) : ∀ chan ∈ next.chans, Channel.Lettered chan := by
  simp only [channelSetTopic] at ran
  split at ran
  · cases ran
    exact lettered
  · obtain ⟨name,-,ran⟩ := Option.bind_eq_some_iff.mp ran
    refine onChannel_all lettered ?_ ran
    intro chan chan' out own did
    cases did
    exact own

theorem channelBanlistAdd_lettered (ran : channelBanlistAdd net data = some (next,out)) : ∀ chan ∈ next.chans, Channel.Lettered chan := by
  simp only [channelBanlistAdd] at ran
  split at ran
  · cases ran
    exact lettered
  · obtain ⟨name,-,ran⟩ := Option.bind_eq_some_iff.mp ran
    refine onChannel_all lettered ?_ ran
    intro chan chan' out own did
    obtain ⟨mask,-,did⟩ := Option.bind_eq_some_iff.mp did
    obtain ⟨known,-,did⟩ := Option.bind_eq_some_iff.mp did
    cases known with
    | some place =>
        cases did
        exact own
    | none =>
        obtain ⟨who,-,did⟩ := Option.bind_eq_some_iff.mp did
        obtain ⟨cell,-,did⟩ := Option.bind_eq_some_iff.mp did
        obtain ⟨time,-,did⟩ := Option.bind_eq_some_iff.mp did
        cases did
        exact own

theorem trollTrigUpdateNick_lettered (ran : trollTrigUpdateNick net data = some (next,out)) : ∀ chan ∈ next.chans, Channel.Lettered chan := by
  obtain ⟨pre,-,ran⟩ := Option.bind_eq_some_iff.mp ran
  refine eachChannel_all lettered ?_ ran
  intro chan chan' own did
  obtain ⟨found,-,did⟩ := Option.bind_eq_some_iff.mp did
  cases found with
  | none =>
      cases did
      exact own
  | some place =>
      obtain ⟨nick,-,did⟩ := Option.bind_eq_some_iff.mp did
      cases did
      exact lettered_modify own place (fun _ sound => sound)

theorem trollTrigUpdateMode_lettered (ran : trollTrigUpdateMode net data = some (next,out)) : ∀ chan ∈ next.chans, Channel.Lettered chan := by
  obtain ⟨name,-,ran⟩ := Option.bind_eq_some_iff.mp ran
  refine onChannel_all lettered ?_ ran
  intro chan chan' out own did
  obtain ⟨cell,-,did⟩ := Option.bind_eq_some_iff.mp did
  obtain ⟨modes,-,did⟩ := Option.bind_eq_some_iff.mp did
  obtain ⟨st,walked,did⟩ := Option.bind_eq_some_iff.mp did
  cases did
  exact Runs.foldlM_keeps (P := fun st : ModeState => st.chan.Lettered) (fun _ _ _ sound did => modeStep_lettered sound did) own walked

theorem trollNickInUseHandler_lettered (ran : trollNickInUseHandler net data = some (next,out)) : ∀ chan ∈ next.chans, Channel.Lettered chan := by
  obtain ⟨nick,-,ran⟩ := Option.bind_eq_some_iff.mp ran
  cases ran
  exact lettered

theorem trollUserHostHandler_lettered (ran : trollUserHostHandler net data = some (next,out)) : ∀ chan ∈ next.chans, Channel.Lettered chan := by
  obtain ⟨joins,-,ran⟩ := Option.bind_eq_some_iff.mp ran
  cases ran
  exact lettered

theorem trollTrigChannelRedirect_lettered (ran : trollTrigChannelRedirect net data = some (next,out)) : ∀ chan ∈ next.chans, Channel.Lettered chan := by
  obtain ⟨name,-,ran⟩ := Option.bind_eq_some_iff.mp ran
  refine onChannel_all lettered ?_ ran
  intro chan chan' out own did
  obtain ⟨other,-,did⟩ := Option.bind_eq_some_iff.mp did
  cases did
  exact own

-- Every handler keeps the mode strings as they have to be, on every record.
theorem handlers_lettered {handler : Handler} (known : ∀ id, handler ≠ .other id) (ran : effect scripts handler net data = some (next,out)) :
    ∀ chan ∈ next.chans, Channel.Lettered chan := by
  cases handler with
  | newJoin => exact newJoin_lettered lettered ran
  | newPart => exact newPart_lettered lettered ran
  | newQuit => exact newQuit_lettered lettered ran
  | newKick => exact newKick_lettered lettered ran
  | trollTrigUpdateTopic => exact trollTrigUpdateTopic_lettered lettered ran
  | trollParseWho => exact trollParseWho_lettered lettered ran
  | channelListPopulate => exact channelListPopulate_lettered lettered ran
  | channelSetModes => exact channelSetModes_lettered lettered ran
  | channelSetTopic => exact channelSetTopic_lettered lettered ran
  | channelBanlistAdd => exact channelBanlistAdd_lettered lettered ran
  | trollTrigUpdateNick => exact trollTrigUpdateNick_lettered lettered ran
  | trollTrigUpdateMode => exact trollTrigUpdateMode_lettered lettered ran
  | trollNickInUseHandler => exact trollNickInUseHandler_lettered lettered (show trollNickInUseHandler net data = _ from ran)
  | trollUserHostHandler => exact trollUserHostHandler_lettered lettered (show trollUserHostHandler net data = _ from ran)
  | trollTrigChannelRedirect => exact trollTrigChannelRedirect_lettered lettered ran
  | other id => exact absurd rfl (known id)

end

def AllLettered (net : Network) : Prop := ∀ chan ∈ net.chans, Channel.Lettered chan

-- Handlers that are not followed here change no mode string.
structure Unlettering (scripts : Nat → Network → IrcData → Result) : Prop where
  leaves : Leaves scripts
  lettered : ∀ id net data later out, scripts id net data = some (later,out) → AllLettered net → AllLettered later

def KeepsLetters (net : Network) (_ : List Output) (later : Network) : Prop := SameTriggers net later ∧ (AllLettered net → AllLettered later)

section
variable {scripts : Nat → Network → IrcData → Result} (unlettering : Unlettering scripts)
include unlettering

theorem runHandler_lettered (done : runHandler scripts net data type place handler = some (later,out)) : KeepsLetters net out later := by
  obtain ⟨⟨changed,sent⟩,ran,done⟩ := Option.bind_eq_some_iff.mp done
  cases done
  constructor
  · by_cases refused : handler = .trollNickInUseHandler
    · subst refused
      obtain ⟨altnick,-,made⟩ := Option.bind_eq_some_iff.mp ran
      cases made
      exact fun other => count_keys type other place
    · exact ((count_keeps net type place).trans (effect_keeps unlettering.leaves refused ran)).trigs
  · intro lettered
    have counted : AllLettered (countUse net type place) := lettered
    by_cases known : ∀ id, handler ≠ .other id
    · exact handlers_lettered counted known ran
    · obtain ⟨id,same⟩ := not_forall_not.mp known
      subst same
      exact unlettering.lettered id _ data _ _ ran counted

theorem letters_rule (command : Str) (data : IrcData) : Rule scripts command data (fun _ _ _ => True) KeepsLetters where
  idle _ := ⟨fun _ => rfl,id⟩
  andThen _ _ _ _ _ first second := ⟨fun type => (second.1 type).trans (first.1 type),fun lettered => second.2 (first.2 lettered)⟩
  same _ _ _ does := does.1
  ran _ _ _ _ _ _ _ _ _ done := runHandler_lettered unlettering done

theorem line_lettered (lettered : AllLettered net) (done : parseIrcLine scripts net line = some (later,out)) : AllLettered later := by
  obtain ⟨data,-,done⟩ := Option.bind_eq_some_iff.mp done
  obtain ⟨⟨middle,sent⟩,first,done⟩ := Option.bind_eq_some_iff.mp done
  obtain ⟨⟨last,more⟩,matched,done⟩ := Option.bind_eq_some_iff.mp done
  cases done
  refine ((letters_rule unlettering data.command data).triggers (fun _ _ _ => trivial) matched).2 ?_
  split at first
  · obtain ⟨word,-,first⟩ := Option.bind_eq_some_iff.mp first
    cases word with
    | none =>
        cases first
        exact lettered
    | some server =>
        cases first
        exact lettered
  split at first
  · unfold serverHost at first
    repeat' split at first
    all_goals cases first
    all_goals exact lettered
  · cases first
    exact lettered

-- Whatever lines come in, the mode strings stay as they have to be.
theorem lines_lettered (lettered : AllLettered net) (done : hearLines scripts lines net = some (later,out)) : AllLettered later := by
  induction lines generalizing net later out with
  | nil =>
      cases done
      exact lettered
  | cons line rest ih =>
      obtain ⟨⟨middle,sent⟩,first,done⟩ := Option.bind_eq_some_iff.mp done
      obtain ⟨⟨last,more⟩,others,done⟩ := Option.bind_eq_some_iff.mp done
      cases done
      exact ih (line_lettered unlettering lettered first) others

end

end Trollbot.Irc
