import Trollbot.ModeString
import Trollbot.Names

-- What a MODE message of the letters o and v does to the records.
namespace Trollbot.Irc
open CBuffer IrcParse Roster

-- A MODE message for a channel. The last of its words may come after a colon.
structure ModeMessage (name modes : Str) (args : List Str) (msg : Message) : Prop where
  readable : msg.Readable
  command : msg.command = "MODE".toList
  words : msg.middles ++ msg.trailing.toList = name :: modes :: args

def signStep (plus : Bool) (c : Char) : Bool := if c = '+' then true else if c = '-' then false else plus

structure Change where
  plus : Bool
  letter : Char
  nick : Str
deriving DecidableEq

-- The changes of a mode string of the letters o and v.
def changes (plus : Bool) : Str → List Str → List Change
  | [],_ => []
  | c :: rest,args =>
    if c = 'o' ∨ c = 'v' then
      match args with
      | [] => []
      | nick :: args => ⟨plus,c,nick⟩ :: changes plus rest args
    else changes (signStep plus c) rest args

def changesOf (nick : Str) (l : List Change) : List (Bool × Char) :=
  (l.filter (fun ch => fold ch.nick = fold nick)).map (fun ch => (ch.plus,ch.letter))

def Channel.changed (chan : Channel) (ch : Change) : Channel :=
  match chan.place ch.nick with
  | none => chan
  | some place => chan.modifyUser place (fun cuser => { cuser with modes := putMode ch.plus ch.letter cuser.modes })

-- egg_isop and egg_isvoice look for their letter.
def hasLetter (c : Char) (chan : Channel) (nickname : Str) : Option Bool := do
  match ← channelChannelUserFind chan (some nickname) with
  | none => some false
  | some place => do
    let cuser ← chan.userList.items[place]?
    some (match cuser.modes with
      | none => false
      | some modes => decide (c ∈ modes))

def eggIs (c : Char) (net : Network) (nickname : Str) (channel : Option Str) : Option Bool :=
  if channel.getD [] = [] then (findPlace (fun chan => hasLetter c chan nickname) net.chans).map Option.isSome
  else do
    match ← networkChannelFind net channel with
    | none => some false
    | some place => do
      let chan ← net.chans[place]?
      hasLetter c chan nickname

def eggIsop : Network → Str → Option Str → Option Bool := eggIs 'o'
def eggIsvoice : Network → Str → Option Str → Option Bool := eggIs 'v'

-- The records of the channel's users are the same but for the modes of those that are named.
def Follows (l : List Change) (old new : Channel) : Prop :=
  { new with userList := old.userList } = old ∧ new.userList.behind = old.userList.behind ∧
    List.Forall₂ (fun cuser after : ChannelUser => { after with modes := cuser.modes } = cuser ∧
      ((∀ ch ∈ l, cuser.key ≠ some (fold ch.nick)) → after = cuser)) old.userList.items new.userList.items

-- What the bot answers for a user after the changes is what the last one that names it asks for, or
-- what it answered before.
def ModesFollow (net : Network) (name : Str) (l : List Change) (result : Result) : Prop :=
  ∃ place old new, networkChannelFind net (some name) = some (some place) ∧ net.chans[place]? = some old ∧
    result = some (net.modifyChan place (fun _ => new),[]) ∧ Follows l old new ∧
    ∀ nick, some (fold nick) ∈ old.nicks →
      eggIsop (net.modifyChan place (fun _ => new)) nick (some name) =
        (eggIsop net nick (some name)).map (fun before => (lastSign 'o' (changesOf nick l)).getD before) ∧
      eggIsvoice (net.modifyChan place (fun _ => new)) nick (some name) =
        (eggIsvoice net nick (some name)).map (fun before => (lastSign 'v' (changesOf nick l)).getD before)

-- The words are read: none comes after a colon, or there is no user to compare the last nick with.
def ModesRead (msg : Message) (args : List Str) (chan : Channel) : Prop :=
  msg.trailing = none ∨ args ≠ [] ∧ chan.userList.items = []

def LettersKept (chan : Channel) (l : List Change) : Prop :=
  ∀ nick cuser, first ChannelUser.key (some (fold nick)) chan.userList.items = some cuser →
    LetterKept 'o' cuser.modes (changesOf nick l) ∧ LetterKept 'v' cuser.modes (changesOf nick l)

def Channel.Lettered (chan : Channel) : Prop := ∀ cuser ∈ chan.userList.whole, ModeLetters cuser.modes

theorem modify_same {α : Type} {l : List α} {f g : α → α} {x : α} (here : l[i]? = some x) (same : f x = g x) : l.modify i f = l.modify i g := by
  induction l generalizing i with
  | nil => simp
  | cons y rest ih =>
      cases i with
      | zero =>
          obtain rfl : y = x := by simpa using here
          simp [same]
      | succ i => simp [ih (by simpa using here)]

theorem changed_items (chan : Channel) (ch : Change) : (chan.changed ch).userList.items = amend ChannelUser.key (some (fold ch.nick))
    (fun cuser => { cuser with modes := putMode ch.plus ch.letter cuser.modes }) chan.userList.items := by
  unfold Channel.changed
  cases found : chan.place ch.nick with
  | none => exact (amend_missing ChannelUser.key (first_missing ChannelUser.key found) _).symm
  | some place => exact modify_amend ChannelUser.key found _

theorem changed_others (chan : Channel) (ch : Change) :
    { chan.changed ch with userList := chan.userList } = chan ∧ (chan.changed ch).userList.behind = chan.userList.behind := by
  unfold Channel.changed
  split <;> exact ⟨rfl,rfl⟩

theorem named_changed {chan : Channel} (named : chan.Named) (ch : Change) : (chan.changed ch).Named := by
  unfold Channel.changed
  split
  · exact named
  · refine ⟨named.name,?_⟩
    intro cuser member
    rcases Chain.mem_modify _ member with same | ⟨before,old,rfl⟩
    · exact named.nicks cuser same
    · exact named.nicks before old

theorem lettered_modify {chan : Channel} (lettered : chan.Lettered) (place : Nat) {f : ChannelUser → ChannelUser}
    (keeps : ∀ cuser, ModeLetters cuser.modes → ModeLetters (f cuser).modes) : (chan.modifyUser place f).Lettered := by
  intro cuser member
  rcases Chain.mem_modify _ member with same | ⟨before,old,rfl⟩
  · exact lettered cuser same
  · exact keeps before (lettered before old)

theorem lettered_changed {chan : Channel} (lettered : chan.Lettered) (ch : Change) (letter : ch.letter = 'o' ∨ ch.letter = 'v') :
    (chan.changed ch).Lettered := by
  unfold Channel.changed
  split
  · exact lettered
  · exact lettered_modify lettered _ (fun _ sound => put_sound _ sound letter)

theorem userMode_changed {st : ModeState} (named : st.chan.Named) (lettered : st.chan.Lettered)
    (reads : slot data.cParams (st.argIndex + 2) = some (some nick)) :
    userMode data c st = some { st with argIndex := st.argIndex + 1, chan := st.chan.changed ⟨st.plus,c,nick⟩ } := by
  simp only [userMode,reads,find_named named,Channel.changed,Option.bind_eq_bind,Option.bind_some]
  cases found : st.chan.place nick with
  | none => rfl
  | some place =>
      obtain ⟨cuser,here,-⟩ := modify_first ChannelUser.key found
      have sound := lettered cuser (List.mem_append_right _ (List.mem_of_getElem? here))
      have same := modify_same (f := fun other : ChannelUser => { other with modes := putMode st.plus c cuser.modes })
        (g := fun other : ChannelUser => { other with modes := putMode st.plus c other.modes }) here rfl
      simp only [here,changeMode_sound sound,Option.bind_some,Channel.modifyUser,Chain.modify,same]

theorem modeStep_sign (data : IrcData) (st : ModeState) (sign : c = '+' ∨ c = '-') :
    modeStep data st c = some { st with plus := signStep st.plus c } := by
  rcases sign with rfl | rfl <;> rfl

theorem modeStep_user (data : IrcData) (st : ModeState) (letter : c = 'o' ∨ c = 'v') : modeStep data st c = userMode data c st := by
  rcases letter with rfl | rfl <;> rfl

theorem changes_letters (member : ch ∈ changes plus modes args) : ch.letter = 'o' ∨ ch.letter = 'v' := by
  induction modes generalizing plus args with
  | nil => cases member
  | cons c rest ih =>
      simp only [changes] at member
      split at member
      · rename_i letter
        cases args with
        | nil => cases member
        | cons nick args =>
            rcases List.mem_cons.mp member with rfl | later
            · exact letter
            · exact ih later
      · exact ih member

theorem letter_or_sign (is : c = '+' ∨ c = '-' ∨ c = 'o' ∨ c = 'v') :
    (c = 'o' ∨ c = 'v') ∨ (c = '+' ∨ c = '-') ∧ ¬(c = 'o' ∨ c = 'v') := by
  rcases is with rfl | rfl | rfl | rfl <;> decide

-- As long as the arguments that are read are there, each o and v takes the next one.
theorem run_changes {data : IrcData} {modes : Str} (st : ModeState) (args : List Str) (named : st.chan.Named) (lettered : st.chan.Lettered)
    (letters : ∀ c ∈ modes, c = '+' ∨ c = '-' ∨ c = 'o' ∨ c = 'v') (enough : modes.countP (fun c => c = 'o' ∨ c = 'v') ≤ args.length)
    (reads : ∀ (i : Nat) (a : Str), args[i]? = some a → slot data.cParams (st.argIndex + i + 2) = some (some a)) :
    ∃ plus, modes.foldlM (modeStep data) st = some ⟨plus,st.argIndex + modes.countP (fun c => c = 'o' ∨ c = 'v'),
      (changes st.plus modes args).foldl Channel.changed st.chan⟩ := by
  induction modes generalizing st args with
  | nil => exact ⟨st.plus,rfl⟩
  | cons c rest ih =>
      have others : ∀ d ∈ rest, d = '+' ∨ d = '-' ∨ d = 'o' ∨ d = 'v' := fun d member => letters d (by simp [member])
      rcases letter_or_sign (letters c (by simp)) with letter | ⟨sign,letter⟩
      · rw [List.countP_cons_of_pos (by simpa using letter)] at enough ⊢
        cases args with
        | nil => simp at enough
        | cons nick args =>
            have step := userMode_changed (c := c) named lettered (reads 0 nick rfl)
            obtain ⟨plus,done⟩ := ih { st with argIndex := st.argIndex + 1, chan := st.chan.changed ⟨st.plus,c,nick⟩ } args
              (named_changed named _) (lettered_changed lettered _ letter) others (by simpa using enough) (by
                intro i a here
                have later := reads (i + 1) a (by simpa using here)
                rwa [show st.argIndex + (i + 1) + 2 = st.argIndex + 1 + i + 2 by omega] at later)
            refine ⟨plus,?_⟩
            rw [List.foldlM_cons,modeStep_user data st letter,step,Option.bind_eq_bind,Option.bind_some,done]
            simp only [changes,if_pos letter,List.foldl_cons,Nat.add_assoc,Nat.add_comm 1]
      · rw [List.countP_cons_of_neg (by simpa using letter)] at enough ⊢
        obtain ⟨plus,done⟩ := ih { st with plus := signStep st.plus c } args named lettered others enough reads
        refine ⟨plus,?_⟩
        rw [List.foldlM_cons,modeStep_sign data st sign,Option.bind_eq_bind,Option.bind_some,done]
        simp only [changes,if_neg letter]

theorem forall₂_amend {α κ : Type} [DecidableEq κ] {key : α → κ} {f : α → α} {R S : α → α → Prop} {l l' : List α} {k : κ}
    (related : List.Forall₂ R l l')
    (keeps : ∀ x y, R x y → S x y) (changes : ∀ x y, R x y → key y = k → S x (f y)) : List.Forall₂ S l (amend key k f l') := by
  induction related with
  | nil => exact .nil
  | cons first rest ih =>
      rename_i x y _ _
      simp only [amend]
      split
      · rename_i here
        exact .cons (changes x y first here) (rest.imp keeps)
      · exact .cons (keeps x y first) ih

theorem changes_follow (chan : Channel) (l : List Change) : Follows l chan (l.foldl Channel.changed chan) := by
  induction l using List.reverseRecOn with
  | nil => exact ⟨rfl,rfl,List.forall₂_same.mpr (fun cuser _ => ⟨rfl,fun _ => rfl⟩)⟩
  | append_singleton front ch ih =>
      obtain ⟨same,behind,items⟩ := ih
      obtain ⟨same',behind'⟩ := changed_others (front.foldl Channel.changed chan) ch
      rw [List.foldl_append,List.foldl_cons,List.foldl_nil]
      refine ⟨?_,behind'.trans behind,?_⟩
      · exact (congrArg (fun other : Channel => { other with userList := chan.userList }) same').trans same
      · rw [changed_items]
        refine forall₂_amend items ?_ ?_
        · rintro cuser after ⟨bare,quiet⟩
          exact ⟨bare,fun unnamed => quiet (fun other member => unnamed other (by simp [member]))⟩
        · rintro cuser after ⟨bare,-⟩ key
          refine ⟨bare,?_⟩
          intro unnamed
          have nick : after.nick = cuser.nick := by rw [← bare]
          refine absurd ?_ (unnamed ch (by simp))
          rw [← key,ChannelUser.key,ChannelUser.key,nick]

theorem first_changed (chan : Channel) (l : List Change) (nick : Str) :
    first ChannelUser.key (some (fold nick)) (l.foldl Channel.changed chan).userList.items =
      (first ChannelUser.key (some (fold nick)) chan.userList.items).map
        (fun cuser => { cuser with modes := putModes cuser.modes (changesOf nick l) }) := by
  induction l generalizing chan with
  | nil => simp [changesOf,putModes]
  | cons ch rest ih =>
      have keeps : ∀ cuser : ChannelUser, ({ cuser with modes := putMode ch.plus ch.letter cuser.modes } : ChannelUser).key = cuser.key :=
        fun _ => rfl
      rw [List.foldl_cons,ih,changed_items,first_amend ChannelUser.key keeps]
      by_cases own : fold ch.nick = fold nick
      · rw [if_pos (congrArg some own.symm),own,Option.map_map]
        simp [changesOf,own,putModes,Function.comp_def]
      · rw [if_neg (fun same => own (Option.some.inj same).symm)]
        simp [changesOf,own]

-- Without a user nothing is compared, and no record is changed.
theorem run_empty {modes : Str} (data : IrcData) (st : ModeState) (empty : st.chan.userList.items = [])
    (letters : ∀ c ∈ modes, c = '+' ∨ c = '-' ∨ c = 'o' ∨ c = 'v')
    (reads : ∀ i, i < modes.countP (fun c => c = 'o' ∨ c = 'v') → ∃ a, slot data.cParams (st.argIndex + i + 2) = some a) :
    ∃ plus index, modes.foldlM (modeStep data) st = some ⟨plus,index,st.chan⟩ := by
  induction modes generalizing st with
  | nil => exact ⟨st.plus,st.argIndex,rfl⟩
  | cons c rest ih =>
      have others : ∀ d ∈ rest, d = '+' ∨ d = '-' ∨ d = 'o' ∨ d = 'v' := fun d member => letters d (by simp [member])
      rcases letter_or_sign (letters c (by simp)) with letter | ⟨sign,letter⟩
      · rw [List.countP_cons_of_pos (by simpa using letter)] at reads
        obtain ⟨a,here⟩ := reads 0 (by omega)
        have step : userMode data c st = some { st with argIndex := st.argIndex + 1 } := by
          have here' : slot data.cParams (st.argIndex + 2) = some a := here
          simp only [userMode,here',channelChannelUserFind,empty,findPlace,Option.bind_eq_bind,Option.bind_some]
        rw [List.foldlM_cons,modeStep_user data st letter,step,Option.bind_eq_bind,Option.bind_some]
        refine ih _ empty others ?_
        intro i inside
        obtain ⟨b,later⟩ := reads (i + 1) (by omega)
        exact ⟨b,by rwa [show st.argIndex + (i + 1) + 2 = st.argIndex + 1 + i + 2 by omega] at later⟩
      · rw [List.countP_cons_of_neg (by simpa using letter)] at reads
        rw [List.foldlM_cons,modeStep_sign data st sign,Option.bind_eq_bind,Option.bind_some]
        exact ih _ empty others reads

theorem amend_nil {α κ : Type} [DecidableEq κ] {key : α → κ} {f : α → α} {l : List α} {k : κ} : amend key k f l = [] ↔ l = [] := by
  cases l with
  | nil => simp [amend]
  | cons x rest =>
      simp only [amend]
      split <;> simp

-- The nick after the colon is not among the parameters: a null pointer is compared with the first user.
theorem run_stops {data : IrcData} {modes : Str} (st : ModeState) (heard : List Str) (named : st.chan.Named) (lettered : st.chan.Lettered)
    (users : st.chan.userList.items ≠ []) (letters : ∀ c ∈ modes, c = '+' ∨ c = '-' ∨ c = 'o' ∨ c = 'v')
    (count : modes.countP (fun c => c = 'o' ∨ c = 'v') = heard.length + 1)
    (reads : ∀ (i : Nat) (a : Str), heard[i]? = some a → slot data.cParams (st.argIndex + i + 2) = some (some a))
    (ended : slot data.cParams (st.argIndex + heard.length + 2) = some none) : modes.foldlM (modeStep data) st = none := by
  induction modes generalizing st heard with
  | nil => simp at count
  | cons c rest ih =>
      have others : ∀ d ∈ rest, d = '+' ∨ d = '-' ∨ d = 'o' ∨ d = 'v' := fun d member => letters d (by simp [member])
      rcases letter_or_sign (letters c (by simp)) with letter | ⟨sign,letter⟩
      · rw [List.countP_cons_of_pos (by simpa using letter)] at count
        rw [List.foldlM_cons,modeStep_user data st letter]
        cases heard with
        | nil =>
            obtain ⟨cuser,more,items⟩ := List.exists_cons_of_ne_nil users
            have ended' : slot data.cParams (st.argIndex + 2) = some none := ended
            have faults : userMode data c st = none := by
              simp [userMode,ended',channelChannelUserFind,items,findPlace,sameText]
            rw [faults]
            rfl
        | cons nick heard =>
            have step := userMode_changed (c := c) named lettered (reads 0 nick rfl)
            rw [step,Option.bind_eq_bind,Option.bind_some]
            refine ih _ heard (named_changed named _) (lettered_changed lettered _ letter) ?_ others (by simpa using count) ?_ ?_
            · dsimp only
              rwa [changed_items,ne_eq,amend_nil]
            · intro i a here
              have later := reads (i + 1) a (by simpa using here)
              rwa [show st.argIndex + (i + 1) + 2 = st.argIndex + 1 + i + 2 by omega] at later
            · rwa [List.length_cons,show st.argIndex + (heard.length + 1) + 2 = st.argIndex + 1 + heard.length + 2 by omega] at ended
      · rw [List.countP_cons_of_neg (by simpa using letter)] at count
        rw [List.foldlM_cons,modeStep_sign data st sign,Option.bind_eq_bind,Option.bind_some]
        exact ih _ heard named lettered users others count reads ended

theorem middle_slots (readable : Message.Readable msg) (some' : msg.middles ≠ []) (read : decode netNick msg.render = some data)
    (inside : i ≤ msg.middles.length) : slot data.cParams i = some msg.middles[i]? := by
  obtain ⟨data',decoded,out⟩ := decode_readout netNick msg readable
  obtain rfl : data = data' := Option.some.inj (read.symm.trans decoded)
  obtain ⟨slots,params,found⟩ := out.params some'
  rw [params]
  rcases Nat.lt_or_eq_of_le inside with early | rfl
  · have here : msg.middles[i]? = some msg.middles[i] := List.getElem?_eq_getElem early
    rw [here]
    exact slot_word found here
  · rw [slot_end found]
    simp

-- The arguments that are among the parameters.
def heardArgs (args : List Str) (msg : Message) : List Str := if msg.trailing = none then args else args.dropLast

section
variable {name modes : Str} {args : List Str} {msg : Message} (is : ModeMessage name modes args msg)
include is

theorem mode_middles : msg.middles = if msg.trailing = none then name :: modes :: args else (name :: modes :: args).dropLast := by
  have words := is.words
  cases colon : msg.trailing with
  | none =>
      rw [colon] at words
      simpa using words
  | some text =>
      rw [colon] at words
      simp only [Option.toList_some] at words
      rw [← words]
      simp

theorem mode_slots (read : decode netNick msg.render = some data) (inside : i ≤ msg.middles.length) :
    slot data.cParams i = some msg.middles[i]? := by
  refine middle_slots is.readable ?_ read inside
  rw [mode_middles is]
  split <;> simp

theorem mode_name (read : decode netNick msg.render = some data) : slot data.cParams 0 = some (some name) ∧ name ≠ [] := by
  have middles := mode_middles is
  have first : msg.middles[0]? = some name := by
    rw [middles]
    split <;> simp
  refine ⟨by rw [mode_slots is read (Nat.zero_le _),first],?_⟩
  exact (is.readable.middles name (List.mem_of_getElem? first)).1

theorem mode_reads (read : decode netNick msg.render = some data) (apart : msg.trailing = none ∨ args ≠ []) :
    slot data.cParams 1 = some (some modes) ∧
      (∀ (i : Nat) (a : Str), (heardArgs args msg)[i]? = some a → slot data.cParams (0 + i + 2) = some (some a)) ∧
      slot data.cParams (0 + (heardArgs args msg).length + 2) = some none := by
  have middles : msg.middles = name :: modes :: heardArgs args msg := by
    rw [mode_middles is,heardArgs]
    split
    · rfl
    · rename_i colon
      have some' := apart.resolve_left colon
      simp [List.dropLast_cons_of_ne_nil some']
  have slots := fun i => mode_slots (i := i) is read
  rw [middles] at slots
  refine ⟨slots 1 (by simp),?_,?_⟩
  · intro i a here
    have inside := (List.getElem?_eq_some_iff.mp here).1
    rw [Nat.zero_add,slots (i + 2) (by simp; omega)]
    simpa using here
  · rw [Nat.zero_add,slots _ (by simp)]
    simp

-- With the mode string after the colon a null pointer is read through.
theorem mode_unread (read : decode netNick msg.render = some data) (colon : msg.trailing ≠ none) (none' : args = []) :
    slot data.cParams 1 = some none := by
  have middles : msg.middles = [name] := by
    rw [mode_middles is,if_neg colon,none']
    rfl
  rw [mode_slots is read (by rw [middles]; simp),middles]
  rfl

end

theorem update_mode_runs {net : Network} (chan : slot data.cParams 0 = some (some name)) (mode : slot data.cParams 1 = some (some modes))
    (found : networkChannelFind net (some name) = some (some place)) (here : net.chans[place]? = some record) :
    trollTrigUpdateMode net data = (modes.foldlM (modeStep data) ⟨true,0,record⟩).map (fun st => (net.modifyChan place (fun _ => st.chan),[])) := by
  simp only [trollTrigUpdateMode,chan,found,onChannel,here,mode,Option.bind_eq_bind,Option.bind_some]
  cases modes.foldlM (modeStep data) ⟨true,0,record⟩ <;> rfl

theorem first_recorded {name : Option Str} {chans : List Channel} (recorded : first Channel.key name chans = some chan) :
    ∃ place, chans.findIdx? (fun chan => chan.key = name) = some place ∧ chans[place]? = some chan := by
  cases found : chans.findIdx? (fun chan => chan.key = name) with
  | none =>
      rw [first_missing Channel.key found] at recorded
      cases recorded
  | some place => exact ⟨place,rfl,(first_place Channel.key found).symm.trans recorded⟩

theorem hasLetter_first {chan : Channel} (named : chan.Named) (c : Char) (found : first ChannelUser.key (some (fold nick)) chan.userList.items = some cuser) :
    hasLetter c chan nick = some (decide (c ∈ cuser.modes.getD [])) := by
  unfold hasLetter
  rw [find_named named]
  cases place : chan.place nick with
  | none =>
      rw [first_missing ChannelUser.key place] at found
      cases found
  | some place' =>
      have here := (first_place ChannelUser.key place).symm.trans found
      simp only [Option.bind_eq_bind,Option.bind_some,here]
      cases cuser.modes <;> simp

theorem eggIs_first {net : Network} (c : Char) (some' : name ≠ []) (place : networkChannelFind net (some name) = some (some i))
    (here : net.chans[i]? = some chan) (named : chan.Named) (found : first ChannelUser.key (some (fold nick)) chan.userList.items = some cuser) :
    eggIs c net nick (some name) = some (decide (c ∈ cuser.modes.getD [])) := by
  unfold eggIs
  rw [Option.getD_some,if_neg some']
  simp only [place,here,Option.bind_eq_bind,Option.bind_some]
  exact hasLetter_first named c found

theorem named_changes {chan : Channel} (named : chan.Named) (l : List Change) : (l.foldl Channel.changed chan).Named := by
  induction l generalizing chan with
  | nil => exact named
  | cons ch rest ih => exact ih (named_changed named ch)

theorem key_follows (follows : Follows l old new) : new.key = old.key := by
  have same := congrArg Channel.name follows.1
  exact congrArg (Option.map fold) same

section
variable {net : Network} {name : Str} {place : Nat} {chan : Channel} (named : ∀ chan ∈ net.chans, Channel.Named chan)
  (some' : name ≠ []) (found : net.chans.findIdx? (fun chan => chan.key = some (fold name)) = some place)
  (here : net.chans[place]? = some chan)
include named some' found here

-- What is answered for a user after the changes.
theorem answers_iff (lettered : chan.Lettered) (letters : ∀ ch ∈ l, ch.letter = 'o' ∨ ch.letter = 'v') (letter : c = 'o' ∨ c = 'v')
    (user : first ChannelUser.key (some (fold nick)) chan.userList.items = some cuser) :
    eggIs c (net.modifyChan place (fun _ => l.foldl Channel.changed chan)) nick (some name) =
      (eggIs c net nick (some name)).map (fun before => (lastSign c (changesOf nick l)).getD before) ↔
    LetterKept c cuser.modes (changesOf nick l) := by
  have own := named chan (List.mem_of_getElem? here)
  have own' := named_changes own l
  have before : networkChannelFind net (some name) = some (some place) := by rw [networkChannelFind,find_channel named,found]
  have after : networkChannelFind (net.modifyChan place (fun _ => l.foldl Channel.changed chan)) (some name) = some (some place) := by
    rw [networkChannelFind,Network.modifyChan,find_replaced named own' here (key_follows (changes_follow chan l)) name,found]
  have user' := first_changed chan l nick
  rw [user,Option.map_some] at user'
  have sound := lettered cuser (List.mem_append_right _ (List.mem_of_find?_eq_some user))
  have valid : ∀ ch ∈ changesOf nick l, ch.2 = 'o' ∨ ch.2 = 'v' := by
    intro ch member
    obtain ⟨change,inside,rfl⟩ := List.mem_map.mp member
    exact letters change (List.mem_of_mem_filter inside)
  rw [eggIs_first c some' before here own user,eggIs_first c some' after (modify_here here _) own' user',Option.map_some,Option.some_inj,
    ← letter_kept_iff sound letter (changesOf nick l) valid]
  rfl

theorem modes_follow_iff (lettered : chan.Lettered) (letters : ∀ ch ∈ l, ch.letter = 'o' ∨ ch.letter = 'v') :
    ModesFollow net name l (some (net.modifyChan place (fun _ => l.foldl Channel.changed chan),[])) ↔ LettersKept chan l := by
  have before : networkChannelFind net (some name) = some (some place) := by rw [networkChannelFind,find_channel named,found]
  constructor
  · rintro ⟨place',old,new,at',old',ran,-,answers⟩
    obtain rfl : place = place' := Option.some.inj (Option.some.inj (before.symm.trans at'))
    obtain rfl : chan = old := Option.some.inj (here.symm.trans old')
    have same := congrArg (fun result : Result => result.bind (fun done => done.1.chans[place]?)) ran
    simp only [Option.bind_some,Network.modifyChan,modify_here here,Option.some_inj] at same
    subst same
    intro nick cuser user
    have listed : some (fold nick) ∈ chan.nicks := by
      have key := List.find?_some user
      exact List.mem_map.mpr ⟨cuser,List.mem_of_find?_eq_some user,by simpa using key⟩
    obtain ⟨op,voice⟩ := answers nick listed
    exact ⟨(answers_iff named some' found here lettered letters (.inl rfl) user).mp op,
      (answers_iff named some' found here lettered letters (.inr rfl) user).mp voice⟩
  · intro kept
    refine ⟨place,chan,_,before,here,rfl,changes_follow chan l,?_⟩
    intro nick listed
    cases user : first ChannelUser.key (some (fold nick)) chan.userList.items with
    | none =>
        obtain ⟨cuser,inside,key⟩ := List.mem_map.mp listed
        have missing := List.find?_eq_none.mp user cuser inside
        simp [key] at missing
    | some cuser =>
        obtain ⟨op,voice⟩ := kept nick cuser user
        exact ⟨(answers_iff named some' found here lettered letters (.inl rfl) user).mpr op,
          (answers_iff named some' found here lettered letters (.inr rfl) user).mpr voice⟩

end

theorem follows_refl (l : List Change) (chan : Channel) : Follows l chan chan :=
  ⟨rfl,rfl,List.forall₂_same.mpr (fun _ _ => ⟨rfl,fun _ => rfl⟩)⟩

theorem modes_follow_read {net : Network} (named : ∀ chan ∈ net.chans, Channel.Named chan) (is : ModeMessage name modes args msg)
    (read : decode net.nick msg.render = some data)
    (letters : ∀ c ∈ modes, c = '+' ∨ c = '-' ∨ c = 'o' ∨ c = 'v') (exact' : args.length = modes.countP (fun c => c = 'o' ∨ c = 'v'))
    (recorded : first Channel.key (some (fold name)) net.chans = some chan) (lettered : chan.Lettered) :
    ModesFollow net name (changes true modes args) (trollTrigUpdateMode net data) ↔
      ModesRead msg args chan ∧ LettersKept chan (changes true modes args) := by
  obtain ⟨place,found,here⟩ := first_recorded recorded
  obtain ⟨chanParam,some'⟩ := mode_name is read
  have own := named chan (List.mem_of_getElem? here)
  have before : networkChannelFind net (some name) = some (some place) := by rw [networkChannelFind,find_channel named,found]
  have valid : ∀ ch ∈ changes true modes args, ch.letter = 'o' ∨ ch.letter = 'v' := fun _ member => changes_letters member
  by_cases colon : msg.trailing = none
  · obtain ⟨mode,reads,-⟩ := mode_reads is read (.inl colon)
    rw [heardArgs,if_pos colon] at reads
    obtain ⟨plus,done⟩ := run_changes ⟨true,0,chan⟩ _ own lettered letters (Nat.le_of_eq exact'.symm) reads
    rw [update_mode_runs chanParam mode before here,done,Option.map_some,modes_follow_iff named some' found here lettered valid]
    exact ⟨fun kept => ⟨.inl colon,kept⟩,And.right⟩
  · by_cases none' : args = []
    · have mode := mode_unread is read colon none'
      have stops : trollTrigUpdateMode net data = none := by
        simp [trollTrigUpdateMode,chanParam,before,onChannel,mode]
      rw [stops]
      constructor
      · rintro ⟨_,_,_,_,_,ran,-⟩
        cases ran
      · rintro ⟨heard | ⟨some'',-⟩,-⟩
        · exact absurd heard colon
        · exact absurd none' some''
    · obtain ⟨mode,reads,ended⟩ := mode_reads is read (.inr none')
      have positive : 0 < args.length := List.length_pos_of_ne_nil none'
      have length : (heardArgs args msg).length + 1 = args.length := by
        rw [heardArgs,if_neg colon,List.length_dropLast]
        omega
      rw [update_mode_runs chanParam mode before here]
      by_cases empty : chan.userList.items = []
      · obtain ⟨plus,index,done⟩ := run_empty data ⟨true,0,chan⟩ empty letters (by
          intro i inside
          by_cases early : i < (heardArgs args msg).length
          · exact ⟨_,reads i _ (List.getElem?_eq_getElem early)⟩
          · obtain rfl : i = (heardArgs args msg).length := by omega
            exact ⟨none,ended⟩)
        rw [done,Option.map_some]
        constructor
        · intro _
          refine ⟨.inr ⟨none',empty⟩,?_⟩
          intro nick cuser user
          rw [empty] at user
          cases user
        · intro _
          refine ⟨place,chan,chan,before,here,rfl,follows_refl _ chan,?_⟩
          intro nick listed
          simp [Channel.nicks,empty] at listed
      · have stops := run_stops ⟨true,0,chan⟩ _ own lettered empty letters (by omega) reads ended
        rw [stops]
        constructor
        · rintro ⟨_,_,_,_,_,ran,-⟩
          cases ran
        · rintro ⟨heard | ⟨-,empty'⟩,-⟩
          · exact absurd heard colon
          · exact absurd empty' empty

-- For any records, any mode string of + - o v and any arguments.
theorem op_voice_tracked (net : Network) (named : ∀ chan ∈ net.chans, Channel.Named chan) (name modes : Str) (args : List Str) (msg : Message)
    (is : ModeMessage name modes args msg) (letters : ∀ c ∈ modes, c = '+' ∨ c = '-' ∨ c = 'o' ∨ c = 'v')
    (exact' : args.length = modes.countP (fun c => c = 'o' ∨ c = 'v')) (chan : Channel)
    (recorded : first Channel.key (some (fold name)) net.chans = some chan) (lettered : chan.Lettered) :
    ∃ data, decode net.nick msg.render = some data ∧ (ModesFollow net name (changes true modes args) (trollTrigUpdateMode net data) ↔
      ModesRead msg args chan ∧ LettersKept chan (changes true modes args)) := by
  obtain ⟨data,read,-⟩ := decode_readout net.nick msg is.readable
  exact ⟨data,read,modes_follow_read named is read letters exact' recorded lettered⟩

def opOnC (modes : Option Str) : Network :=
  { onlyC with chans := [{ newChannel "#c".toList with userList := ⟨[],[⟨some "ann".toList,none,modes,none⟩]⟩ }] }

def modeOnC (modes : Str) : Message := ⟨some (.mask "op".toList "o".toList "h".toList),"MODE".toList,["#c".toList,modes,"ann".toList],none⟩

theorem opOnC_named (modes : Option Str) : ∀ chan ∈ (opOnC modes).chans, Channel.Named chan := by
  intro chan member
  obtain rfl := List.mem_singleton.mp member
  exact ⟨by simp [newChannel],by simp [Chain.whole]⟩

theorem modeOnC_message (short : modes = "+v".toList ∨ modes = "-o".toList) : ModeMessage "#c".toList modes ["ann".toList] (modeOnC modes) := by
  have each : ∀ middle ∈ (modeOnC modes).middles, middle ≠ [] ∧ ' ' ∉ middle ∧ middle.head? ≠ some ':' := by
    rcases short with rfl | rfl <;> decide
  refine ⟨⟨?_,by show Word "MODE".toList; unfold Word; decide,fun middle member => each middle member,.inl (by simp [modeOnC]),?_⟩,rfl,rfl⟩
  · intro origin same
    cases same
    exact ⟨by show '!' ∉ _ ∧ '@' ∉ _; decide,by decide⟩
  · rcases short with rfl | rfl <;> decide

theorem opOnC_lettered : ∀ chan ∈ (opOnC (some "o".toList)).chans, chan.Lettered := by
  intro chan member cuser inside
  obtain rfl := List.mem_singleton.mp member
  obtain rfl := List.mem_singleton.mp inside
  intro s same
  obtain rfl := Option.some.inj same
  decide

theorem changesOf_single {ch : Change} (same : fold ch.nick = fold nick) : changesOf nick [ch] = [(ch.plus,ch.letter)] := by
  simp [changesOf,same]

theorem deop_tracked : ∃ data, decode (opOnC (some "o".toList)).nick (modeOnC "-o".toList).render = some data ∧
    ModesFollow (opOnC (some "o".toList)) "#c".toList [⟨false,'o',"ann".toList⟩] (trollTrigUpdateMode (opOnC (some "o".toList)) data) := by
  obtain ⟨data,read,exact'⟩ := op_voice_tracked (opOnC (some "o".toList)) (opOnC_named _) "#c".toList "-o".toList ["ann".toList] _
    (modeOnC_message (.inr rfl)) (by decide) (by decide) _ rfl (opOnC_lettered _ (by simp [opOnC]))
  refine ⟨data,read,exact'.mpr ⟨.inl rfl,?_⟩⟩
  intro nick cuser user
  obtain rfl := List.mem_singleton.mp (List.mem_of_find?_eq_some user)
  have key := List.find?_some user
  have same : fold "ann".toList = fold nick := by simpa [ChannelUser.key] using key
  have single : changes true "-o".toList ["ann".toList] = [⟨false,'o',"ann".toList⟩] := rfl
  rw [single,changesOf_single same]
  decide

-- The voice takes the place of the op.
theorem voice_takes_op : ¬∀ data, decode (opOnC (some "o".toList)).nick (modeOnC "+v".toList).render = some data →
    ModesFollow (opOnC (some "o".toList)) "#c".toList [⟨true,'v',"ann".toList⟩] (trollTrigUpdateMode (opOnC (some "o".toList)) data) := by
  intro all
  obtain ⟨data,read,-⟩ := decode_readout (opOnC (some "o".toList)).nick _ (modeOnC_message (.inl rfl)).readable
  have follow := (modes_follow_read (opOnC_named _) (modeOnC_message (.inl rfl)) read (by decide) (by decide) rfl
    (opOnC_lettered _ (by simp [opOnC]))).mp (all data read)
  have kept := (follow.2 "ann".toList ⟨some "ann".toList,none,some "o".toList,none⟩ rfl).1
  revert kept
  decide

end Trollbot.Irc
