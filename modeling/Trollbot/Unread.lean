import Trollbot.Spelled

-- What the handlers read of the last parameter and of the text after a colon.
namespace Trollbot.Irc
open CBuffer IrcParse

-- A test of the channel that a name has a record of.
def OnKnown (net : Network) (name : Option Str) (test : Channel → Prop) : Prop :=
  ∀ place chan, networkChannelFind net name = some (some place) → net.chans[place]? = some chan → test chan

-- The mask is in the ban list.
def Listed (chan : Channel) (mask : Option Str) : Prop :=
  ∃ place, findPlace (fun ban : ChannelBan => do
    let old ← ban.mask
    let new ← mask
    some (decide (old = new))) chan.banlist.items = some (some place)

-- A letter of a MODE line and the place of its argument. An empty list is not searched.
def Letter (n : Nat) (c : Char) (st : ModeState) : Prop :=
  if c = 'o' ∨ c = 'v' then Kept n (st.argIndex + 2) ∨ st.argIndex + 2 = n ∧ st.chan.userList.items = []
  else if c = 'b' then
    if st.plus then Kept n (st.argIndex + 2) else st.argIndex + 2 < n ∨ st.chan.banlist.items = []
  else True

-- The letters in turn, each on what the ones before it left.
def Letters (data : IrcData) (n : Nat) : Str → ModeState → Prop
  | [],_ => True
  | c :: modes,st => Letter n c st ∧ ∀ next, modeStep data st c = some next → Letters data n modes next

-- The handler does not read what the spellings differ in.
def Unread (scripts : Nat → Network → IrcData → Result) (net : Network) (data other : IrcData) (middles : List Str) :
    Handler → Prop
  | .newJoin => net.chans = []
  | .newPart => 0 < middles.length
  | .newQuit => True
  | .newKick => 1 < middles.length
  | .trollTrigUpdateTopic => net.chans = [] ∨ 0 < middles.length ∧ OnKnown net middles[0]? (fun _ => False)
  | .trollParseWho => middles.length = 1 ∧ net.chans = [] ∨ 1 < middles.length ∧
    OnKnown net middles[1]? (fun chan => 5 < middles.length ∨ middles.length = 4 ∧ chan.userList.items = [])
  | .channelListPopulate => False
  | .channelSetModes => net.chans = [] ∨ 1 < middles.length ∧ OnKnown net middles[1]? (fun _ => 2 < middles.length)
  | .channelSetTopic => net.chans = [] ∨ 1 < middles.length ∧ OnKnown net middles[1]? (fun _ => False)
  | .channelBanlistAdd => net.chans = [] ∨ 1 < middles.length ∧
    OnKnown net middles[1]? (fun chan => 2 < middles.length ∧ (Listed chan middles[2]? ∨ 4 < middles.length))
  | .trollTrigUpdateNick =>
    ∀ pre, data.pre = some pre → ∀ chan ∈ net.chans, ∀ place, channelChannelUserFind chan pre.nick ≠ some (some place)
  | .trollTrigUpdateMode => 0 < middles.length ∧ OnKnown net middles[0]? (fun chan => 1 < middles.length ∧
    ∀ modes, middles[1]? = some modes → Letters data middles.length modes ⟨true,0,chan⟩)
  | .trollNickInUseHandler => True
  | .trollUserHostHandler => True
  | .trollTrigChannelRedirect => 0 < middles.length ∧ net.chans = [] ∨
    2 < middles.length ∧ OnKnown net middles[2]? (fun _ => 3 < middles.length)
  | .other id => scripts id net data = scripts id net other

theorem onChannel_same (same : ∀ place chan, found = some (some place) → net.chans[place]? = some chan → f chan = g chan) :
    onChannel net found f = onChannel net found g := by
  unfold onChannel
  cases found with
  | none => rfl
  | some result =>
      cases result with
      | none => rfl
      | some place =>
          cases here : net.chans[place]? with
          | none => simp [here]
          | some chan =>
              have alike := same place chan rfl here
              simp [here,alike]

-- Where both ends of a search are the same, the channel's are.
theorem onChannel_only (ran : onChannel net (some (some place)) f = some result)
    (again : onChannel net (some (some place)) g = some result) (here : net.chans[place]? = some chan) :
    ∃ done, f chan = some done ∧ g chan = some done := by
  simp only [onChannel,here,Option.bind_eq_bind,Option.bind_some,Option.bind_eq_some_iff] at ran again
  obtain ⟨⟨one,out⟩,first,done⟩ := ran
  cases done
  obtain ⟨⟨two,more⟩,second,same⟩ := again
  simp only [Option.some.injEq,Prod.mk.injEq] at same
  obtain ⟨nets,rfl⟩ := same
  have cells : ∀ c : Channel, (net.modifyChan place (fun _ => c)).chans[place]? = some c := by
    intro c
    simp [Network.modifyChan,here]
  have chans : some two = some one := by rw [← cells two,nets,cells one]
  cases chans
  exact ⟨(one,more),first,second⟩

theorem sameText_comm (first second : Option Str) : sameText first second = sameText second first := by
  cases first with
  | none => cases second <;> rfl
  | some a =>
      cases second with
      | none => rfl
      | some b =>
          have same : tstrcasecmp a b = 0 ↔ tstrcasecmp b a = 0 := by
            rw [tstrcasecmp_iff,tstrcasecmp_iff]
            exact eq_comm
          simp only [sameText,Option.bind_eq_bind,Option.bind_some,decide_eq_decide.mpr same]

theorem eachChannel_same (same : ∀ chan ∈ net.chans, f chan = g chan) : eachChannel net f = eachChannel net g := by
  unfold eachChannel
  suffices alike : net.chans.mapM f = net.chans.mapM g by rw [alike]
  generalize net.chans = chans at same
  induction chans with
  | nil => rfl
  | cons chan chans ih =>
      have later := ih (fun other member => same other (by simp [member]))
      rw [List.mapM_cons,List.mapM_cons,same chan (by simp),later]

theorem OnKnown.imp (known : OnKnown net name test) (goes : ∀ chan, test chan → test' chan) : OnKnown net name test' :=
  fun place chan found here => goes chan (known place chan found here)

theorem find_flipped (net : Network) (name : Option Str) :
    findPlace (fun chan : Channel => sameText name chan.name) net.chans = networkChannelFind net name := by
  unfold networkChannelFind
  congr 1
  funext chan
  exact sameText_comm name chan.name

theorem mapM_each {l : List α} {f : α → Option β} (mapped : l.mapM f = some r) (member : a ∈ l) : ∃ b, f a = some b := by
  induction l generalizing r with
  | nil => cases member
  | cons x rest ih =>
      rw [List.mapM_cons] at mapped
      obtain ⟨y,first,mapped⟩ := Option.bind_eq_some_iff.mp mapped
      obtain ⟨ys,later,-⟩ := Option.bind_eq_some_iff.mp mapped
      rcases List.mem_cons.mp member with rfl | inside
      · exact ⟨y,first⟩
      · exact ih later inside

theorem findPlace_faults {l : List α} (faults : ∀ x, test x = none) (ran : findPlace test l = some found) : l = [] := by
  cases l with
  | nil => rfl
  | cons x rest =>
      simp only [findPlace,faults,Option.bind_eq_bind,Option.bind_none] at ran
      cases ran

theorem sameText_null (first : Option Str) : sameText first none = none := by
  cases first <;> rfl

-- Only an empty list can be searched for a null pointer.
theorem find_null (ran : networkChannelFind net none = some found) : net.chans = [] :=
  findPlace_faults (fun chan => sameText_null chan.name) ran

theorem onChannel_searched (ran : onChannel net found f = some result) : ∃ place, found = some place := by
  cases found with
  | none => cases ran
  | some place => exact ⟨place,rfl⟩

theorem modeStep_index (taken : modeStep data st c = some next) :
    next.argIndex = st.argIndex + if c = 'o' ∨ c = 'v' ∨ c = 'b' then 1 else 0 := by
  unfold modeStep at taken
  split at taken
  · rename_i plus
    cases taken
    simp [plus]
  · split at taken
    · rename_i minus
      cases taken
      simp [minus]
    · split at taken
      · rename_i user
        have letter : c = 'o' ∨ c = 'v' ∨ c = 'b' := user.elim .inl (fun v => .inr (.inl v))
        rw [if_pos letter]
        simp only [userMode,Option.bind_eq_bind,Option.bind_eq_some_iff] at taken
        obtain ⟨nick,-,found,-,taken⟩ := taken
        cases found with
        | none =>
            cases taken
            rfl
        | some place =>
            simp only [Option.bind_eq_some_iff] at taken
            obtain ⟨cuser,-,modes,-,taken⟩ := taken
            cases taken
            rfl
      · rename_i noUser
        split at taken
        · rename_i ban
          rw [if_pos (.inr (.inr ban))]
          simp only [banMode,Option.bind_eq_bind] at taken
          split at taken
          · simp only [Option.bind_eq_some_iff] at taken
            obtain ⟨name,-,mask,-,pre,-,taken⟩ := taken
            cases taken
            rfl
          · simp only [Option.bind_eq_some_iff] at taken
            obtain ⟨found,-,taken⟩ := taken
            cases taken
            rfl
        · rename_i noBan
          cases taken
          have none' : ¬(c = 'o' ∨ c = 'v' ∨ c = 'b') := fun letter => letter.elim (fun o => noUser (.inl o))
            (fun rest => rest.elim (fun v => noUser (.inr v)) noBan)
          rw [if_neg none',Nat.add_zero]

section
variable (spelled : Spelled netNick origin command middles p data other)
include spelled

theorem rest_missing : slot data.rest 0 = none ∧ slot other.rest 0 = some (some p) := by
  obtain ⟨slots,rest,read⟩ := spelled.otherRest.1
  refine ⟨by simp [slot,spelled.rest.1],?_⟩
  rw [rest]
  exact slot_word read rfl

theorem Spelled.param (again : slot other.cParams i = some x) :
    middles ≠ [] ∧ (i < middles.length ∧ x = middles[i]? ∨ middles.length ≤ i ∧ x = none) := by
  refine ⟨?_,?_⟩
  · intro empty
    rw [spelled.missing empty] at again
    cases again
  · by_cases early : i < middles.length
    · rw [(spelled.same early).2] at again
      exact .inl ⟨early,(Option.some.inj again).symm⟩
    · refine .inr ⟨by omega,?_⟩
      cases x with
      | none => rfl
      | some w => exact absurd (spelled.filled again) early

-- Up to the place behind the last parameter's, both spellings have a cell.
theorem Spelled.readable (some' : 0 < middles.length) (near : i ≤ middles.length + 1) (clear : Clear i) :
    ∃ one two, slot data.cParams i = some one ∧ slot other.cParams i = some two := by
  have many : middles ≠ [] := List.length_pos_iff.mp some'
  by_cases early : i < middles.length
  · exact ⟨_,_,spelled.same early⟩
  · by_cases last : i = middles.length
    · exact ⟨_,_,last ▸ spelled.last,last ▸ spelled.stopped many⟩
    · obtain rfl : i = middles.length + 1 := by omega
      exact ⟨_,_,spelled.ended,(spelled.behind many).trans (if_pos clear)⟩

theorem letter_same (some' : 0 < middles.length) (letter : Letter middles.length c st) : modeStep data st c = modeStep other st c := by
  have many : middles ≠ [] := List.length_pos_iff.mp some'
  unfold Letter at letter
  unfold modeStep
  split
  · rfl
  · split
    · rfl
    · split
      · rename_i user
        rw [if_pos user] at letter
        rcases letter with kept | ⟨last,empty⟩
        · simp only [userMode,spelled.kept many kept]
        · simp [userMode,last,spelled.last,spelled.stopped many,channelChannelUserFind,empty,findPlace]
      · rename_i noUser
        rw [if_neg noUser] at letter
        split
        · rename_i ban
          rw [if_pos ban] at letter
          unfold banMode
          split
          · rename_i plus
            rw [if_pos plus] at letter
            simp only [spelled.kept many letter,(spelled.same some').1,(spelled.same some').2,spelled.prefixes.2]
          · rename_i minus
            rw [if_neg minus] at letter
            rcases letter with early | empty
            · simp only [spelled.kept many (kept_before early)]
            · simp [empty,findPlace]
        · rfl

theorem letters_same (some' : 0 < middles.length) (letters : Letters data middles.length modes st) :
    modes.foldlM (modeStep data) st = modes.foldlM (modeStep other) st := by
  induction modes generalizing st with
  | nil => rfl
  | cons c modes ih =>
      obtain ⟨first,later⟩ := letters
      have step := letter_same spelled some' first
      rw [List.foldlM_cons,List.foldlM_cons,← step]
      cases after : modeStep data st c with
      | none => rfl
      | some next => exact ih (later next after)

end

-- Two runs of a MODE line after a ban of the last parameter: its mask is a null pointer in the second
-- one, and the next arguments are behind the parameters.
structure Parted (n : Nat) (one two : ModeState) : Prop where
  sign : one.plus = two.plus
  late : n < two.argIndex + 2
  some : two.chan.banlist.items ≠ []
  differ : one.chan.banlist.items.map (·.mask) ≠ two.chan.banlist.items.map (·.mask)

theorem userMode_frame (taken : userMode data c st = some next) : next.plus = st.plus ∧ next.chan.banlist = st.chan.banlist := by
  simp only [userMode,Option.bind_eq_bind,Option.bind_eq_some_iff] at taken
  obtain ⟨nick,-,found,-,taken⟩ := taken
  cases found with
  | none =>
      cases taken
      exact ⟨rfl,rfl⟩
  | some place =>
      simp only [Option.bind_eq_some_iff] at taken
      obtain ⟨cuser,-,modes,-,taken⟩ := taken
      cases taken
      exact ⟨rfl,rfl⟩

theorem banMode_plus (plus : st.plus = true) (taken : banMode data st = some next) : next.plus = true ∧
    ∃ name mask who, slot data.cParams (st.argIndex + 2) = some mask ∧
      next.chan.banlist.items = st.chan.banlist.items ++ [⟨name,mask,who,none⟩] := by
  simp only [banMode,plus,if_true,Option.bind_eq_bind,Option.bind_eq_some_iff] at taken
  obtain ⟨name,-,mask,read,pre,-,taken⟩ := taken
  cases taken
  exact ⟨rfl,name,mask,pre.nick,read,Chain.add_items _ _⟩

theorem banMode_minus (minus : st.plus = false) (some' : st.chan.banlist.items ≠ []) (taken : banMode data st = some next) :
    ∃ mask, slot data.cParams (st.argIndex + 2) = some (some mask) := by
  simp only [banMode,minus,Bool.false_eq_true,if_false,Option.bind_eq_bind,Option.bind_eq_some_iff] at taken
  obtain ⟨found,ran,-⟩ := taken
  cases read : slot data.cParams (st.argIndex + 2) with
  | none =>
      rw [read] at ran
      exact absurd (findPlace_faults (fun _ => rfl) ran) some'
  | some mask =>
      cases mask with
      | none =>
          rw [read] at ran
          exact absurd (findPlace_faults (fun ban => sameText_null ban.mask) ran) some'
      | some mask => exact ⟨mask,rfl⟩

section
variable (spelled : Spelled netNick origin command middles p data other)
include spelled

theorem parted_step (parted : Parted middles.length one two) (taken : modeStep data one c = some next)
    (again : modeStep other two c = some last) : Parted middles.length next last := by
  obtain ⟨sign,late,some',differ⟩ := parted
  have index := modeStep_index again
  unfold modeStep at taken again
  split at taken
  · rename_i plus
    rw [if_pos plus] at again
    cases taken
    cases again
    exact ⟨rfl,late,some',differ⟩
  · rename_i notPlus
    rw [if_neg notPlus] at again
    split at taken
    · rename_i minus
      rw [if_pos minus] at again
      cases taken
      cases again
      exact ⟨rfl,late,some',differ⟩
    · rename_i notMinus
      rw [if_neg notMinus] at again
      split at taken
      · rename_i user
        rw [if_pos user] at again
        obtain ⟨sameSign,sameBans⟩ := userMode_frame taken
        obtain ⟨sameSign',sameBans'⟩ := userMode_frame again
        exact ⟨by rw [sameSign,sameSign',sign],by omega,by rw [sameBans']; exact some',by rw [sameBans,sameBans']; exact differ⟩
      · rename_i notUser
        rw [if_neg notUser] at again
        split at taken
        · rename_i ban
          rw [if_pos ban] at again
          cases plus : two.plus with
          | true =>
              obtain ⟨sign',name,mask,who,-,items⟩ := banMode_plus (sign.trans plus) taken
              obtain ⟨sign'',name',mask',who',-,items'⟩ := banMode_plus plus again
              refine ⟨sign'.trans sign''.symm,by omega,by simp [items'],?_⟩
              intro same
              rw [items,items',List.map_append,List.map_append] at same
              exact differ (List.append_inj_left' same rfl)
          | false =>
              obtain ⟨mask,read⟩ := banMode_minus plus some' again
              have early := spelled.filled read
              omega
        · rename_i notBan
          rw [if_neg notBan] at again
          cases taken
          cases again
          exact ⟨sign,late,some',differ⟩

theorem parted_run {modes : Str} (parted : Parted middles.length one two) (ran : modes.foldlM (modeStep data) one = some done)
    (again : modes.foldlM (modeStep other) two = some done') : done.chan ≠ done'.chan := by
  induction modes generalizing one two with
  | nil =>
      cases ran
      cases again
      intro same
      exact parted.differ (by rw [same])
  | cons c modes ih =>
      rw [List.foldlM_cons] at ran again
      obtain ⟨next,taken,ran⟩ := Option.bind_eq_some_iff.mp ran
      obtain ⟨last,taken',again⟩ := Option.bind_eq_some_iff.mp again
      exact ih (parted_step spelled parted taken taken') ran again

-- A letter that both spellings get over is read alike, or parts them.
theorem letter_only (some' : 0 < middles.length) (taken : modeStep data st c = some one) (again : modeStep other st c = some two) :
    Letter middles.length c st ∨ Parted middles.length one two := by
  have many : middles ≠ [] := List.length_pos_iff.mp some'
  have index := modeStep_index again
  unfold Letter
  by_cases user : c = 'o' ∨ c = 'v'
  · rw [if_pos user]
    refine .inl ?_
    have noSign : c ≠ '+' ∧ c ≠ '-' := by rcases user with rfl | rfl <;> decide
    simp only [modeStep,if_neg noSign.1,if_neg noSign.2,if_pos user,userMode,Option.bind_eq_bind,Option.bind_eq_some_iff] at again
    obtain ⟨nick,read,found,ran,-⟩ := again
    refine (spelled.read many read).imp_right (fun last => ⟨last,?_⟩)
    rw [last,spelled.stopped many] at read
    cases read
    exact findPlace_faults (fun cuser => sameText_null cuser.nick) ran
  · rw [if_neg user]
    by_cases ban : c = 'b'
    · subst ban
      rw [if_pos rfl]
      have bans : ∀ d : IrcData, modeStep d st 'b' = banMode d st := fun _ => rfl
      rw [bans] at taken again
      cases plus : st.plus with
      | true =>
          rw [if_pos rfl]
          obtain ⟨sign,name,mask,who,read,items⟩ := banMode_plus plus taken
          obtain ⟨sign',name',mask',who',read',items'⟩ := banMode_plus plus again
          rcases spelled.read many read' with kept | last
          · exact .inl kept
          · rw [last,spelled.last] at read
            rw [last,spelled.stopped many] at read'
            cases read
            cases read'
            refine .inr ⟨sign.trans sign'.symm,?_,by simp [items'],by simp [items,items']⟩
            rw [index,if_pos (by simp)]
            omega
      | false =>
          rw [if_neg (by simp)]
          refine .inl ?_
          by_cases empty : st.chan.banlist.items = []
          · exact .inr empty
          · obtain ⟨mask,read⟩ := banMode_minus plus empty again
            exact .inl (spelled.filled read)
    · rw [if_neg ban]
      exact .inl trivial

theorem letters_only (some' : 0 < middles.length) (ran : modes.foldlM (modeStep data) st = some done)
    (again : modes.foldlM (modeStep other) st = some done') (same : done.chan = done'.chan) :
    Letters data middles.length modes st := by
  induction modes generalizing st with
  | nil => trivial
  | cons c modes ih =>
      rw [List.foldlM_cons] at ran again
      obtain ⟨one,taken,ran⟩ := Option.bind_eq_some_iff.mp ran
      obtain ⟨two,taken',again⟩ := Option.bind_eq_some_iff.mp again
      rcases letter_only spelled some' taken taken' with letter | parted
      · rw [← letter_same spelled some' letter,taken] at taken'
        cases taken'
        refine ⟨letter,?_⟩
        intro next after
        cases taken.symm.trans after
        exact ih ran again
      · exact absurd same (parted_run spelled parted ran again)

-- A handler that does not read what the spellings differ in does the same for both.
theorem effect_same {net : Network} (unread : Unread scripts net data other middles handler) :
    effect scripts handler net data = effect scripts handler net other := by
  have pre := spelled.prefixes.2
  have agree : ∀ i < middles.length, slot data.cParams i = slot other.cParams i :=
    fun i early => (spelled.same early).1.trans (spelled.same early).2.symm
  have named : ∀ i < middles.length, slot other.cParams i = some middles[i]? := fun i early => (spelled.same early).2
  cases handler with
  | newJoin =>
      have empty : net.chans = [] := unread
      simp [effect,newJoin,pre,empty,findPlace,onChannel]
  | newPart => simp [effect,newPart,pre,agree 0 unread]
  | newQuit => simp [effect,newQuit,pre]
  | newKick =>
      have some' : 1 < middles.length := unread
      simp only [effect,newKick,pre,agree 0 (by omega),agree 1 some']
  | trollTrigUpdateTopic =>
      rcases unread with empty | ⟨some',missing⟩
      · simp [effect,trollTrigUpdateTopic,empty]
      · simp only [effect,trollTrigUpdateTopic,agree 0 some',named 0 some',Option.bind_eq_bind,Option.bind_some]
        split
        · rfl
        · refine onChannel_same ?_
          intro place chan found here
          refine (missing place chan ?_ here).elim
          simpa only [networkChannelFind,sameText_comm] using found
  | trollParseWho =>
      rcases unread with ⟨one,empty⟩ | ⟨some',known⟩
      · have many : middles ≠ [] := List.length_pos_iff.mp (by omega)
        have last := spelled.last
        have stopped := spelled.stopped many
        rw [one] at last stopped
        simp [effect,trollParseWho,last,stopped,networkChannelFind,empty,findPlace,onChannel]
      · have many : middles ≠ [] := List.length_pos_iff.mp (by omega)
        simp only [effect,trollParseWho,agree 1 some',named 1 some',Option.bind_eq_bind,Option.bind_some]
        refine onChannel_same ?_
        intro place chan found here
        rcases known place chan found here with late | ⟨four,empty⟩
        · simp only [agree 5 late,agree 2 (by omega),agree 3 (by omega)]
        · have behind : slot data.cParams 5 = slot other.cParams 5 := by
            refine spelled.kept many ?_
            rw [four]
            decide
          simp only [behind,agree 2 (by omega),agree 3 (by omega)]
  | channelListPopulate => exact unread.elim
  | channelSetModes =>
      rcases unread with empty | ⟨some',known⟩
      · simp [effect,channelSetModes,empty]
      · simp only [effect,channelSetModes,agree 1 some',named 1 some',Option.bind_eq_bind,Option.bind_some]
        split
        · rfl
        · refine onChannel_same ?_
          intro place chan found here
          simp only [agree 2 (known place chan found here)]
  | channelSetTopic =>
      rcases unread with empty | ⟨some',missing⟩
      · simp [effect,channelSetTopic,empty]
      · simp only [effect,channelSetTopic,agree 1 some',named 1 some',Option.bind_eq_bind,Option.bind_some]
        split
        · rfl
        · refine onChannel_same ?_
          intro place chan found here
          exact (missing place chan found here).elim
  | channelBanlistAdd =>
      rcases unread with empty | ⟨some',known⟩
      · simp [effect,channelBanlistAdd,empty]
      · simp only [effect,channelBanlistAdd,agree 1 some',named 1 some',Option.bind_eq_bind,Option.bind_some]
        split
        · rfl
        · refine onChannel_same ?_
          intro place chan found here
          obtain ⟨two,rest⟩ := known place chan found here
          rcases rest with ⟨at',listed⟩ | four
          · simp only [Option.bind_eq_bind] at listed
            simp only [agree 2 two,named 2 two,Option.bind_some,listed]
          · simp only [agree 2 two,agree 3 (by omega),agree 4 four]
  | trollTrigUpdateNick =>
      simp only [effect,trollTrigUpdateNick,pre]
      cases origin : data.pre with
      | none => rfl
      | some pre' =>
          refine eachChannel_same ?_
          intro chan member
          have absent := unread pre' origin chan member
          cases found : channelChannelUserFind chan pre'.nick with
          | none => rfl
          | some result =>
              cases result with
              | none => rfl
              | some place => exact absurd found (absent place)
  | trollTrigUpdateMode =>
      obtain ⟨some',known⟩ := unread
      simp only [effect,trollTrigUpdateMode,agree 0 some',named 0 some',Option.bind_eq_bind,Option.bind_some]
      refine onChannel_same ?_
      intro place chan found here
      obtain ⟨two,letters⟩ := known place chan found here
      rw [agree 1 two,named 1 two]
      cases modes : middles[1]? with
      | none => rfl
      | some modes' =>
          simp only [Option.bind_some]
          rw [letters_same spelled some' (letters modes' modes)]
  | trollNickInUseHandler => rfl
  | trollUserHostHandler => rfl
  | trollTrigChannelRedirect =>
      rcases unread with ⟨some',empty⟩ | ⟨some',known⟩
      · obtain ⟨one,two,first,second⟩ := spelled.readable some' (show 2 ≤ middles.length + 1 by omega) (.inl (by decide))
        simp [effect,trollTrigChannelRedirect,first,second,networkChannelFind,empty,findPlace,onChannel]
      · simp only [effect,trollTrigChannelRedirect,agree 2 some',named 2 some',Option.bind_eq_bind,Option.bind_some]
        refine onChannel_same ?_
        intro place chan found here
        simp only [agree 3 (known place chan found here)]
  | other id => exact unread

-- A handler that looks for a named channel comes to the same end for both spellings where there is no
-- channel, or the name comes before the last parameter.
theorem named_only {net : Network} {f g : Option Str → Channel → Option (Channel × List Output)}
    (ran : (slot data.cParams i).bind (fun name => onChannel net (networkChannelFind net name) (f name)) = some result)
    (again : (slot other.cParams i).bind (fun name => onChannel net (networkChannelFind net name) (g name)) = some result) :
    middles ≠ [] ∧ (net.chans = [] ∨ i < middles.length ∧
      OnKnown net middles[i]? (fun chan => ∃ done, f middles[i]? chan = some done ∧ g middles[i]? chan = some done)) := by
  obtain ⟨name,read,second⟩ := Option.bind_eq_some_iff.mp again
  obtain ⟨many,⟨early,rfl⟩ | ⟨-,rfl⟩⟩ := spelled.param read
  · refine ⟨many,.inr ⟨early,?_⟩⟩
    intro place chan found here
    rw [(spelled.same early).1,Option.bind_some,found] at ran
    rw [found] at second
    exact onChannel_only ran second here
  · obtain ⟨place,found⟩ := onChannel_searched second
    exact ⟨many,.inl (find_null found)⟩

-- The entry of a WHO reply is the same with five parameters more, or with four where there is no list.
theorem who_only {net : Network} (ran : trollParseWho net data = some result) (again : trollParseWho net other = some result) :
    Unread scripts net data other middles .trollParseWho := by
  obtain ⟨many,none' | ⟨early,known⟩⟩ := named_only spelled ran again
  · by_cases one : middles.length = 1
    · exact .inl ⟨one,none'⟩
    · have some' := List.length_pos_iff.mpr many
      refine .inr ⟨by omega,?_⟩
      intro place chan _ here
      simp [none'] at here
  · refine .inr ⟨early,known.imp ?_⟩
    rintro chan ⟨done,one,two⟩
    by_cases late : 5 < middles.length
    · exact .inl late
    refine .inr ?_
    obtain ⟨nick,read,two⟩ := Option.bind_eq_some_iff.mp two
    obtain ⟨found,searched,two⟩ := Option.bind_eq_some_iff.mp two
    obtain ⟨-,⟨before,-⟩ | ⟨-,rfl⟩⟩ := spelled.param read
    · exact absurd before late
    have empty : chan.userList.items = [] := findPlace_faults (fun cuser => sameText_null cuser.nick) searched
    have unlisted : ∀ find, channelChannelUserFind chan find = some none := by
      intro find
      simp [channelChannelUserFind,empty,findPlace]
    rw [unlisted] at searched
    cases searched
    simp only [Option.bind_eq_bind,unlisted,Option.bind_some,Option.bind_eq_some_iff,Option.some.injEq] at one two
    obtain ⟨nick',cell,ident',second,host',third,rfl⟩ := one
    obtain ⟨ident,secondOther,host,thirdOther,same⟩ := two
    have entry := congrArg (fun done => done.1.userList.items) same
    simp only [Chain.add_items,List.append_cancel_left_eq,List.cons.injEq,ChannelUser.mk.injEq,and_true,true_and] at entry
    obtain ⟨rfl,rfl,rfl⟩ := entry
    have differs : ∀ i, slot data.cParams i = slot other.cParams i → i ≠ middles.length := by
      rintro i same rfl
      rw [spelled.last,spelled.stopped many] at same
      cases same
    have two := differs 2 (second.trans secondOther.symm)
    have three := differs 3 (third.trans thirdOther.symm)
    have five := differs 5 (cell.trans read.symm)
    exact ⟨by omega,empty⟩

-- The mask of a ban is looked for before the rest is read.
theorem ban_only {net : Network} (ran : channelBanlistAdd net data = some result) (again : channelBanlistAdd net other = some result) :
    Unread scripts net data other middles .channelBanlistAdd := by
  by_cases empty : net.chans = []
  · exact .inl empty
  simp only [channelBanlistAdd,if_neg empty] at ran again
  obtain ⟨-,none' | ⟨early,known⟩⟩ := named_only spelled ran again
  · exact absurd none' empty
  refine .inr ⟨early,known.imp ?_⟩
  rintro chan ⟨done,-,two⟩
  obtain ⟨mask,read,two⟩ := Option.bind_eq_some_iff.mp two
  obtain ⟨listed,searched,two⟩ := Option.bind_eq_some_iff.mp two
  cases listed with
  | none =>
      obtain ⟨who,-,two⟩ := Option.bind_eq_some_iff.mp two
      obtain ⟨cell,late,two⟩ := Option.bind_eq_some_iff.mp two
      obtain ⟨time,is,-⟩ := Option.bind_eq_some_iff.mp two
      have four := spelled.filled (is ▸ late)
      exact ⟨by omega,.inr four⟩
  | some place =>
      obtain ⟨many,⟨before,rfl⟩ | ⟨-,rfl⟩⟩ := spelled.param read
      · exact ⟨before,.inl ⟨place,searched⟩⟩
      · have bans := findPlace_faults (fun ban : ChannelBan => by cases ban.mask <;> rfl) searched
        rw [bans] at searched
        cases searched

theorem mode_only {net : Network} (ran : trollTrigUpdateMode net data = some result)
    (again : trollTrigUpdateMode net other = some result) : Unread scripts net data other middles .trollTrigUpdateMode := by
  obtain ⟨many,none' | ⟨some',known⟩⟩ := named_only spelled ran again
  · refine ⟨List.length_pos_iff.mpr many,?_⟩
    intro place chan _ here
    simp [none'] at here
  refine ⟨some',known.imp ?_⟩
  rintro chan ⟨done,one,two⟩
  obtain ⟨cell,read,two⟩ := Option.bind_eq_some_iff.mp two
  obtain ⟨modes,is,two⟩ := Option.bind_eq_some_iff.mp two
  obtain ⟨last',again,done'⟩ := Option.bind_eq_some_iff.mp two
  have early := spelled.filled (is ▸ read)
  obtain ⟨first,second⟩ := spelled.same early
  refine ⟨early,?_⟩
  intro modes' named
  rw [named] at first second
  rw [read,is] at second
  cases second
  rw [first] at one
  simp only [Option.bind_eq_bind,Option.bind_some] at one
  obtain ⟨last,ran,done⟩ := Option.bind_eq_some_iff.mp one
  refine letters_only spelled some' ran again ?_
  exact (Prod.mk.inj (Option.some.inj (done.trans done'.symm))).1

theorem redirect_only {net : Network} (ran : trollTrigChannelRedirect net data = some result)
    (again : trollTrigChannelRedirect net other = some result) :
    Unread scripts net data other middles .trollTrigChannelRedirect := by
  obtain ⟨many,none' | ⟨early,known⟩⟩ := named_only spelled ran again
  · exact .inl ⟨List.length_pos_iff.mpr many,none'⟩
  refine .inr ⟨early,known.imp ?_⟩
  rintro chan ⟨done,one,two⟩
  by_contra late
  have three : middles.length = 3 := by omega
  have last := spelled.last
  have stopped := spelled.stopped many
  rw [three] at last stopped
  simp only [last,stopped,Option.bind_eq_bind,Option.bind_some] at one two
  simp [← one] at two

theorem rename_only {net : Network} (ran : trollTrigUpdateNick net data = some result) :
    Unread scripts net data other middles .trollTrigUpdateNick := by
  intro pre origin chan member place found
  simp only [trollTrigUpdateNick,origin,Option.bind_eq_bind,Option.bind_some,eachChannel] at ran
  obtain ⟨chans,mapped,-⟩ := Option.bind_eq_some_iff.mp ran
  obtain ⟨next,changed⟩ := mapM_each mapped member
  simp only [found,Option.bind_some,(rest_missing spelled).1,Option.bind_none] at changed
  cases changed

theorem populate_only {net : Network} : channelListPopulate net data = none := by
  unfold channelListPopulate
  split
  · rfl
  · simp only [spelled.rest.1,Option.bind_eq_bind,Option.bind_none,Option.bind_eq_none_iff]
    intro name _ found _
    cases found <;> simp

-- A handler that comes to the same end for both spellings does not read what they differ in.
theorem effect_only {net : Network} (ran : effect scripts handler net data = some result)
    (again : effect scripts handler net other = some result) : Unread scripts net data other middles handler := by
  cases handler with
  | newJoin =>
      simp only [effect,newJoin,spelled.rest.2,Option.bind_eq_bind,Option.bind_eq_some_iff] at ran
      obtain ⟨pre',-,ran⟩ := ran
      obtain ⟨place,found⟩ := onChannel_searched ran
      exact findPlace_faults (fun _ => rfl) found
  | newPart =>
      simp only [effect,newPart,Option.bind_eq_bind,Option.bind_eq_some_iff] at again
      obtain ⟨pre',-,name,read,-⟩ := again
      exact List.length_pos_iff.mpr (spelled.param read).1
  | newQuit => trivial
  | newKick =>
      simp only [effect,newKick,Option.bind_eq_bind,Option.bind_eq_some_iff] at again
      obtain ⟨kicked,read,name,-,nick,is,-⟩ := again
      exact spelled.filled (is ▸ read)
  | trollTrigUpdateTopic =>
      by_cases empty : net.chans = []
      · exact .inl empty
      simp only [effect,trollTrigUpdateTopic,if_neg empty,find_flipped] at ran again
      obtain ⟨-,none' | ⟨early,known⟩⟩ := named_only spelled ran again
      · exact absurd none' empty
      · refine .inr ⟨early,known.imp ?_⟩
        rintro chan ⟨done,one,two⟩
        simp [spelled.rest.2,spelled.otherRest.2,← one] at two
  | trollParseWho => exact who_only spelled ran again
  | channelListPopulate =>
      simp only [effect,populate_only spelled] at ran
      cases ran
  | channelSetModes =>
      by_cases empty : net.chans = []
      · exact .inl empty
      simp only [effect,channelSetModes,if_neg empty] at ran again
      obtain ⟨-,none' | ⟨early,known⟩⟩ := named_only spelled ran again
      · exact absurd none' empty
      · refine .inr ⟨early,known.imp ?_⟩
        rintro chan ⟨done,-,two⟩
        simp only [Option.bind_eq_bind,Option.bind_eq_some_iff] at two
        obtain ⟨cell,read,modes,is,-⟩ := two
        exact spelled.filled (is ▸ read)
  | channelSetTopic =>
      by_cases empty : net.chans = []
      · exact .inl empty
      simp only [effect,channelSetTopic,if_neg empty] at ran again
      obtain ⟨-,none' | ⟨early,known⟩⟩ := named_only spelled ran again
      · exact absurd none' empty
      · refine .inr ⟨early,known.imp ?_⟩
        rintro chan ⟨done,one,two⟩
        simp [spelled.rest.2,spelled.otherRest.2,← one] at two
  | channelBanlistAdd => exact ban_only spelled ran again
  | trollTrigUpdateNick => exact rename_only spelled ran
  | trollTrigUpdateMode => exact mode_only spelled ran again
  | trollNickInUseHandler => trivial
  | trollUserHostHandler => trivial
  | trollTrigChannelRedirect => exact redirect_only spelled ran again
  | other id => exact ran.trans again.symm

end

end Trollbot.Irc
