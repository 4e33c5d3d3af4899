import Trollbot.Modes
import Mathlib.Data.List.Induction

-- Which argument of a MODE message each letter takes.
namespace Trollbot.Irc
open CBuffer IrcParse Roster

def signAfter (plus : Bool) (front : Str) : Bool := front.foldl signStep plus

-- The letters that take an argument, and those of them that the handler knows.
def takes (plus : Bool) (c : Char) : Bool := decide (c ∈ ['o','v','b','k','e','I']) || plus && decide (c ∈ ['j','l'])
def applies (c : Char) : Bool := decide (c ∈ ['o','v','b'])

def takers (plus : Bool) : Str → Nat
  | [] => 0
  | c :: rest => (if takes plus c then 1 else 0) + takers (signStep plus c) rest

-- The o, v and b changes, each with the argument in the place of its letter among the takers.
def pairs (plus : Bool) : Str → List Str → List Change
  | [],_ => []
  | c :: rest,args =>
    if takes plus c then
      match args with
      | [] => []
      | arg :: args => if applies c then ⟨plus,c,arg⟩ :: pairs plus rest args else pairs plus rest args
    else pairs (signStep plus c) rest args

def Channel.banPlace (chan : Channel) (mask : Str) : Option Nat :=
  chan.banlist.items.findIdx? (fun ban => ban.mask.map fold = some (fold mask))

def Channel.applied (name who : Option Str) (chan : Channel) (ch : Change) : Channel :=
  if ch.letter = 'b' then
    if ch.plus then { chan with banlist := chan.banlist.add ⟨name,some ch.nick,who,none⟩ }
    else match chan.banPlace ch.nick with
      | none => chan
      | some place => { chan with banlist := chan.banlist.del place }
  else chan.changed ch

-- The bans before the first one with the mask have a mask to compare.
def Searchable (bans : List ChannelBan) (mask : Str) : Prop :=
  ∀ ban ∈ bans.takeWhile (fun ban => ban.mask.map fold ≠ some (fold mask)), ban.mask ≠ none

-- Each o, v and b is reached with the arguments before its own taken, and applies its own.
def ArgumentsPaired (data : IrcData) (name who : Option Str) (chan : Channel) (modes : Str) (args : List Str) : Prop :=
  ∀ front c back, modes = front ++ c :: back → applies c = true → ∃ st arg, slot data.cParams 1 = some (some modes) ∧
    front.foldlM (modeStep data) ⟨true,0,chan⟩ = some st ∧ st.argIndex = takers true front ∧ args[takers true front]? = some arg ∧
    slot data.cParams (st.argIndex + 2) = some (some arg) ∧
    modeStep data st c = some ⟨st.plus,st.argIndex + 1,st.chan.applied name who ⟨signAfter true front,c,arg⟩⟩

-- After a letter whose argument is passed over no o, v or b comes; the argument of one that comes
-- last is not sent after a colon; a ban is set by someone, and taken off a list that can be searched.
structure Pairable (name who : Option Str) (chan : Channel) (modes : Str) (args : List Str) (msg : Message) : Prop where
  heeded : ∀ front c back, modes = front ++ c :: back → takes (signAfter true front) c = true → applies c = false →
    ∀ d ∈ back, applies d = false
  heard : msg.trailing = none ∨ ∀ front c back, modes = front ++ c :: back → applies c = true → 0 < takers (signAfter true front) back
  origin : ∀ front back, modes = front ++ 'b' :: back → signAfter true front = true → msg.origin ≠ none
  searchable : ∀ front back arg, modes = front ++ 'b' :: back → signAfter true front = false → args[takers true front]? = some arg →
    Searchable ((pairs true front args).foldl (Channel.applied name who) chan).banlist.items arg

@[simp] theorem signAfter_snoc (plus : Bool) (front : Str) (c : Char) : signAfter plus (front ++ [c]) = signStep (signAfter plus front) c := by
  simp [signAfter]

theorem applies_cases (own : applies c = true) : c = 'o' ∨ c = 'v' ∨ c = 'b' := by
  simpa [applies] using own

theorem applies_ban (own : applies c = true) (letter : ¬(c = 'o' ∨ c = 'v')) : c = 'b' := by
  rcases applies_cases own with is | is | is
  · exact absurd (.inl is) letter
  · exact absurd (.inr is) letter
  · exact is

theorem applies_takes (own : applies c = true) (plus : Bool) : takes plus c = true := by
  rcases applies_cases own with rfl | rfl | rfl <;> rfl

theorem takes_step (taken : takes plus c = true) : signStep plus c = plus := by
  have plusSign : c ≠ '+' := by
    rintro rfl
    cases plus <;> simp [takes] at taken
  have minusSign : c ≠ '-' := by
    rintro rfl
    cases plus <;> simp [takes] at taken
  simp [signStep,plusSign,minusSign]

theorem takers_append (plus : Bool) (front back : Str) : takers plus (front ++ back) = takers plus front + takers (signAfter plus front) back := by
  induction front generalizing plus with
  | nil => simp [takers,signAfter]
  | cons c rest ih =>
      rw [List.cons_append,takers,takers,ih]
      exact (Nat.add_assoc _ _ _).symm

theorem pairs_taken (taken : takes plus c = true) (rest arg : Str) (args : List Str) :
    pairs plus (c :: rest) (arg :: args) = (if applies c then [⟨plus,c,arg⟩] else []) ++ pairs plus rest args := by
  simp only [pairs,if_pos taken]
  split <;> rfl

theorem pairs_passed (passed : ¬takes plus c = true) (rest : Str) (args : List Str) :
    pairs plus (c :: rest) args = pairs (signStep plus c) rest args := by
  simp only [pairs,if_neg passed]

theorem pairs_append (plus : Bool) (front back : Str) (args : List Str) (enough : takers plus front ≤ args.length) :
    pairs plus (front ++ back) args = pairs plus front args ++ pairs (signAfter plus front) back (args.drop (takers plus front)) := by
  induction front generalizing plus args with
  | nil => simp [pairs,takers,signAfter]
  | cons c rest ih =>
      have sign : signAfter plus (c :: rest) = signAfter (signStep plus c) rest := rfl
      by_cases taken : takes plus c = true
      · rw [sign,takes_step taken]
        rw [takers,if_pos taken,takes_step taken] at enough ⊢
        cases args with
        | nil => simp at enough
        | cons arg args =>
            have later := ih plus args (by simp at enough; omega)
            rw [List.cons_append,pairs_taken taken,pairs_taken taken,later,List.append_assoc,Nat.add_comm 1,List.drop_succ_cons]
      · rw [takers,if_neg taken] at enough ⊢
        rw [List.cons_append,pairs_passed taken,pairs_passed taken,sign,ih (signStep plus c) args (by omega),Nat.zero_add]

theorem searchable_finds (bans : List ChannelBan) (mask : Str) :
    (Searchable bans mask → findPlace (fun ban : ChannelBan => sameText ban.mask (some mask)) bans =
      some (bans.findIdx? (fun ban => ban.mask.map fold = some (fold mask)))) ∧
    (¬Searchable bans mask → findPlace (fun ban : ChannelBan => sameText ban.mask (some mask)) bans = none) := by
  induction bans with
  | nil => simp [Searchable,findPlace]
  | cons ban rest ih =>
      cases own : ban.mask with
      | none => simp [Searchable,findPlace,own,sameText]
      | some old =>
          have test : sameText ban.mask (some mask) = some (decide (fold old = fold mask)) := by
            rw [own,sameText_total (by simp) mask]
            simp
          by_cases same : fold old = fold mask
          · have stops : findPlace (fun ban : ChannelBan => sameText ban.mask (some mask)) (ban :: rest) = some (some 0) := by
              rw [findPlace,test]
              simp [same]
            simp [Searchable,own,same,stops,List.findIdx?_cons]
          · have skip : Searchable (ban :: rest) mask ↔ Searchable rest mask := by
              simp [Searchable,own,same]
            rw [skip,findPlace,test,List.findIdx?_cons,own]
            simp only [same,decide_false,Option.map_some,Option.some_inj]
            constructor
            · intro searchable
              simp [ih.1 searchable]
            · intro stuck
              simp [ih.2 stuck]

-- What a b needs to go through.
def BanRuns (pre : Option IrcPrefix) (st : ModeState) (c : Char) (arg : Str) : Prop :=
  c = 'b' → if st.plus then pre ≠ none else Searchable st.chan.banlist.items arg

theorem applied_user {c : Char} (letter : c = 'o' ∨ c = 'v') (name who : Option Str) (chan : Channel) (plus : Bool) (arg : Str) :
    chan.applied name who ⟨plus,c,arg⟩ = chan.changed ⟨plus,c,arg⟩ := by
  unfold Channel.applied
  rw [if_neg ?_]
  rcases letter with rfl | rfl <;> simp

-- What a b does where it goes through, and when it does not.
theorem step_ban (st : ModeState) (chanParam : slot data.cParams 0 = some name)
    (reads : slot data.cParams (st.argIndex + 2) = some (some arg)) :
    (BanRuns data.pre st 'b' arg → modeStep data st 'b' =
      some ⟨st.plus,st.argIndex + 1,st.chan.applied name (data.pre.bind (·.nick)) ⟨st.plus,'b',arg⟩⟩) ∧
    (¬BanRuns data.pre st 'b' arg → modeStep data st 'b' = none) := by
  have step : modeStep data st 'b' = banMode data st := rfl
  rw [step]
  unfold banMode BanRuns Channel.applied
  cases sign : st.plus with
  | true =>
      cases pre : data.pre with
      | none => simp [chanParam,reads]
      | some origin => simp [chanParam,reads]
  | false =>
      obtain ⟨finds,stuck⟩ := searchable_finds st.chan.banlist.items arg
      constructor
      · intro runs
        have found := finds (runs rfl)
        simp only [reads,Option.bind_eq_bind,Option.bind_some,found,Bool.false_eq_true,if_false,if_true]
        rfl
      · intro stays
        have fails := stuck (fun searchable => stays (fun _ => searchable))
        simp only [reads,Option.bind_eq_bind,Option.bind_some,fails,Bool.false_eq_true,if_false,Option.bind_none]

theorem step_applies {st : ModeState} (named : st.chan.Named) (lettered : st.chan.Lettered) (own : applies c = true)
    (chanParam : slot data.cParams 0 = some name) (reads : slot data.cParams (st.argIndex + 2) = some (some arg)) :
    (BanRuns data.pre st c arg → modeStep data st c =
      some ⟨st.plus,st.argIndex + 1,st.chan.applied name (data.pre.bind (·.nick)) ⟨st.plus,c,arg⟩⟩) ∧
    (¬BanRuns data.pre st c arg → modeStep data st c = none) := by
  by_cases letter : c = 'o' ∨ c = 'v'
  · have notBan : c ≠ 'b' := by rcases letter with rfl | rfl <;> decide
    have runs : BanRuns data.pre st c arg := fun ban => absurd ban notBan
    rw [modeStep_user data st letter,userMode_changed named lettered reads,applied_user letter]
    exact ⟨fun _ => rfl,fun stuck => absurd runs stuck⟩
  · obtain rfl := applies_ban own letter
    exact step_ban st chanParam reads

theorem named_applied {chan : Channel} (named : chan.Named) (name who : Option Str) (ch : Change) : (chan.applied name who ch).Named := by
  unfold Channel.applied
  split
  · split
    · exact ⟨named.name,named.nicks⟩
    · split
      · exact named
      · exact ⟨named.name,named.nicks⟩
  · exact named_changed named ch

theorem lettered_applied {chan : Channel} (lettered : chan.Lettered) (name who : Option Str) {ch : Change} (own : applies ch.letter = true) :
    (chan.applied name who ch).Lettered := by
  unfold Channel.applied
  split
  · split
    · exact lettered
    · split <;> exact lettered
  · rename_i notBan
    refine lettered_changed lettered ch ?_
    rcases applies_cases own with is | is | is
    · exact .inl is
    · exact .inr is
    · exact absurd is notBan

-- A letter that takes nothing and one whose argument is passed over leave the index where it is.
theorem modeStep_passed (data : IrcData) (st : ModeState) (passed : applies c = false) :
    modeStep data st c = some { st with plus := signStep st.plus c } := by
  have letters : c ≠ 'o' ∧ c ≠ 'v' ∧ c ≠ 'b' := by simpa [applies] using passed
  obtain ⟨op,voice,ban⟩ := letters
  unfold modeStep signStep
  simp only [op,voice,ban,or_self,if_false]
  split
  · rfl
  · split <;> rfl

-- The state in front of a letter.
def frontState (name who : Option Str) (chan : Channel) (args : List Str) (front : Str) : ModeState :=
  ⟨signAfter true front,takers true front,(pairs true front args).foldl (Channel.applied name who) chan⟩

theorem frontState_applies (name who : Option Str) (chan : Channel) {args : List Str} {front : Str} (own : applies c = true)
    (arg : args[takers true front]? = some a) : frontState name who chan args (front ++ [c]) = ⟨signAfter true front,takers true front + 1,
      (frontState name who chan args front).chan.applied name who ⟨signAfter true front,c,a⟩⟩ := by
  have taken := applies_takes own (signAfter true front)
  obtain ⟨inside,value⟩ := List.getElem?_eq_some_iff.mp arg
  have drop := List.drop_eq_getElem_cons inside
  have more : takers (signAfter true front) [c] = 1 := by simp [takers,taken]
  simp only [frontState,takers_append,pairs_append _ _ _ _ (Nat.le_of_lt inside),more,signAfter_snoc,List.foldl_append,drop,value,
    pairs_taken taken,takes_step taken,own,if_true]
  rfl

theorem frontState_passed (name who : Option Str) (chan : Channel) {args : List Str} {front : Str} (free : ¬takes (signAfter true front) c = true)
    (enough : takers true front ≤ args.length) : frontState name who chan args (front ++ [c]) =
      { frontState name who chan args front with plus := signStep (signAfter true front) c } := by
  have more : takers (signAfter true front) [c] = 0 := by simp [takers,free]
  simp only [frontState,takers_append,pairs_append _ _ _ _ enough,more,signAfter_snoc,List.foldl_append,pairs_passed free]
  rfl

section
variable {data : IrcData} {chan : Channel} {name : Option Str} {args : List Str} {n : Nat} (named : chan.Named) (lettered : chan.Lettered)
  (chanParam : slot data.cParams 0 = some name) (within : n ≤ args.length)
  (reads : ∀ (i : Nat) (a : Str), i < n → args[i]? = some a → slot data.cParams (i + 2) = some (some a))
include named lettered chanParam within reads

-- As long as no argument was passed over and all of them are heard.
theorem front_reached {front : Str} {st : ModeState} (heeded : ∀ before c after, front = before ++ c :: after → takes (signAfter true before) c = true → applies c = true)
    (enough : takers true front ≤ n) (ran : front.foldlM (modeStep data) ⟨true,0,chan⟩ = some st) :
    st = frontState name (data.pre.bind (·.nick)) chan args front ∧ st.chan.Named ∧ st.chan.Lettered := by
  induction front using List.reverseRecOn generalizing st with
  | nil =>
      cases ran
      exact ⟨rfl,named,lettered⟩
  | append_singleton front c ih =>
      rw [takers_append] at enough
      rw [List.foldlM_append] at ran
      obtain ⟨mid,before,last⟩ := Option.bind_eq_some_iff.mp ran
      have step : modeStep data mid c = some st := by simpa using last
      obtain ⟨is,named',lettered'⟩ := ih (fun a d b split => heeded a d (b ++ [c]) (by rw [split]; simp)) (by omega) before
      have index : mid.argIndex = takers true front := by rw [is]; rfl
      have sign : mid.plus = signAfter true front := by rw [is]; rfl
      cases own : applies c with
      | true =>
          have more : takers (signAfter true front) [c] = 1 := by simp [takers,applies_takes own]
          rw [more] at enough
          obtain ⟨a,arg⟩ : ∃ a, args[takers true front]? = some a := ⟨_,List.getElem?_eq_getElem (by omega)⟩
          have heard := reads _ a (by omega) arg
          rw [← index] at heard
          obtain ⟨does,stops⟩ := step_applies named' lettered' own chanParam heard
          by_cases runs : BanRuns data.pre mid c a
          · rw [does runs] at step
            cases step
            rw [frontState_applies _ _ _ own arg,← is,← index,sign]
            exact ⟨rfl,named_applied named' name _ _,lettered_applied lettered' name _ own⟩
          · rw [stops runs] at step
            cases step
      | false =>
          have free : ¬takes (signAfter true front) c = true := by
            intro taken
            have := heeded front c [] rfl taken
            simp [own] at this
          rw [modeStep_passed data _ own] at step
          cases step
          rw [frontState_passed _ _ _ free (by omega),← is,sign]
          exact ⟨rfl,named',lettered'⟩

theorem front_runs {front : Str} (heeded : ∀ before c after, front = before ++ c :: after → takes (signAfter true before) c = true → applies c = true)
    (enough : takers true front ≤ n) (bans : ∀ before after a, front = before ++ 'b' :: after → args[takers true before]? = some a →
      BanRuns data.pre (frontState name (data.pre.bind (·.nick)) chan args before) 'b' a) :
    ∃ st, front.foldlM (modeStep data) ⟨true,0,chan⟩ = some st := by
  induction front using List.reverseRecOn with
  | nil => exact ⟨_,rfl⟩
  | append_singleton front c ih =>
      rw [takers_append] at enough
      have earlier : ∀ before d after, front = before ++ d :: after → takes (signAfter true before) d = true → applies d = true :=
        fun a d b split => heeded a d (b ++ [c]) (by rw [split]; simp)
      obtain ⟨mid,before⟩ := ih earlier (by omega) (fun a b arg split => bans a (b ++ [c]) arg (by rw [split]; simp))
      obtain ⟨is,named',lettered'⟩ := front_reached named lettered chanParam within reads earlier (by omega) before
      have index : mid.argIndex = takers true front := by rw [is]; rfl
      rw [List.foldlM_append,before]
      suffices step : ∃ st, modeStep data mid c = some st by
        obtain ⟨st,step⟩ := step
        exact ⟨st,by simp [step]⟩
      cases own : applies c with
      | true =>
          have more : takers (signAfter true front) [c] = 1 := by simp [takers,applies_takes own]
          rw [more] at enough
          obtain ⟨a,arg⟩ : ∃ a, args[takers true front]? = some a := ⟨_,List.getElem?_eq_getElem (by omega)⟩
          have heard := reads _ a (by omega) arg
          rw [← index] at heard
          refine ⟨_,(step_applies named' lettered' own chanParam heard).1 ?_⟩
          rintro rfl
          exact is ▸ bans front [] a rfl arg rfl
      | false => exact ⟨_,modeStep_passed data _ own⟩

end

theorem count_takers (plus : Bool) (l : Str) : l.countP applies ≤ takers plus l := by
  induction l generalizing plus with
  | nil => simp [takers]
  | cons c rest ih =>
      have later := ih (signStep plus c)
      cases own : applies c with
      | true =>
          rw [List.countP_cons_of_pos own,takers,if_pos (applies_takes own plus)]
          omega
      | false =>
          rw [List.countP_cons_of_neg (by simp [own]),takers]
          omega

theorem step_index {st st' : ModeState} (own : applies c = true) (step : modeStep data st c = some st') : st'.argIndex = st.argIndex + 1 := by
  by_cases letter : c = 'o' ∨ c = 'v'
  · rw [modeStep_user data st letter] at step
    obtain ⟨nick,-,step⟩ := Option.bind_eq_some_iff.mp step
    obtain ⟨found,-,step⟩ := Option.bind_eq_some_iff.mp step
    cases found with
    | none =>
        cases step
        rfl
    | some place =>
        obtain ⟨cuser,-,step⟩ := Option.bind_eq_some_iff.mp step
        obtain ⟨modes,-,step⟩ := Option.bind_eq_some_iff.mp step
        cases step
        rfl
  · obtain rfl := applies_ban own letter
    replace step : banMode data st = some st' := step
    unfold banMode at step
    split at step
    · obtain ⟨name,-,step⟩ := Option.bind_eq_some_iff.mp step
      obtain ⟨mask,-,step⟩ := Option.bind_eq_some_iff.mp step
      obtain ⟨pre,-,step⟩ := Option.bind_eq_some_iff.mp step
      cases step
      rfl
    · obtain ⟨found,-,step⟩ := Option.bind_eq_some_iff.mp step
      cases step
      rfl

-- The index is advanced by the letters that the handler knows, and by no others.
theorem run_index {front : Str} {st st' : ModeState} (ran : front.foldlM (modeStep data) st = some st') :
    st'.argIndex = st.argIndex + front.countP applies := by
  induction front generalizing st with
  | nil =>
      cases ran
      rfl
  | cons c rest ih =>
      rw [List.foldlM_cons] at ran
      obtain ⟨mid,step,ran⟩ := Option.bind_eq_some_iff.mp ran
      rw [ih ran]
      cases own : applies c with
      | false =>
          rw [modeStep_passed data st own] at step
          cases step
          rw [List.countP_cons_of_neg (by simp [own])]
      | true =>
          rw [List.countP_cons_of_pos own,step_index own step]
          omega

theorem paired_heeded (paired : ArgumentsPaired data name who chan modes args) (split : modes = front ++ c :: back)
    (taken : takes (signAfter true front) c = true) (passed : applies c = false) : ∀ d ∈ back, applies d = false := by
  intro d member
  cases own : applies d with
  | false => rfl
  | true =>
      obtain ⟨between,after,rfl⟩ := List.append_of_mem member
      obtain ⟨st,arg,-,ran,index,-⟩ := paired (front ++ c :: between) d after (by rw [split]; simp) own
      have counted := run_index ran
      have small := count_takers true front
      have later := count_takers (signStep (signAfter true front) c) between
      have skipped : (c :: between).countP applies = between.countP applies := List.countP_cons_of_neg (by simp [passed])
      rw [List.countP_append,skipped,index,takers_append,takers,if_pos taken] at counted
      simp only [Nat.zero_add] at counted
      omega

-- What is before a letter takes less than there is.
theorem front_short {modes : Str} {args : List Str} (exact' : args.length = takers true modes) (split : modes = front ++ c :: back)
    (own : applies c = true) : takers true front + 1 + takers (signAfter true front) back = args.length := by
  have taken := applies_takes own (signAfter true front)
  rw [exact',split,takers_append,takers,if_pos taken,takes_step taken]
  omega

-- Who a message comes from, for the record of a ban.
def setter (netNick : Str) (msg : Message) : Option Str := msg.origin.bind (fun origin => (origin.asPrefix netNick).nick)

section
variable {netNick name modes : Str} {args : List Str} {msg : Message} {chan : Channel} (is : ModeMessage name modes args msg)
  (read : decode netNick msg.render = some data)
include is read

theorem mode_origin : data.pre = msg.origin.map (Origin.asPrefix netNick) ∧ data.pre.bind (·.nick) = setter netNick msg := by
  obtain ⟨data',decoded,out⟩ := decode_readout netNick msg is.readable
  obtain rfl : data = data' := Option.some.inj (read.symm.trans decoded)
  refine ⟨out.pre,?_⟩
  rw [out.pre,setter]
  cases msg.origin <;> rfl

theorem heard_reads (some' : args ≠ []) : (heardArgs args msg).length ≤ args.length ∧
    (msg.trailing = none → (heardArgs args msg).length = args.length) ∧
    (msg.trailing ≠ none → (heardArgs args msg).length + 1 = args.length) ∧
    ∀ (i : Nat) (a : Str), i < (heardArgs args msg).length → args[i]? = some a → slot data.cParams (i + 2) = some (some a) := by
  obtain ⟨-,reads,-⟩ := mode_reads is read (.inr some')
  have positive := List.length_pos_of_ne_nil some'
  by_cases colon : msg.trailing = none
  · rw [heardArgs,if_pos colon] at reads ⊢
    exact ⟨Nat.le_refl _,fun _ => rfl,fun spoken => absurd colon spoken,fun i a _ here => by simpa using reads i a here⟩
  · rw [heardArgs,if_neg colon] at reads ⊢
    rw [List.length_dropLast]
    refine ⟨Nat.sub_le _ _,fun silent => absurd silent colon,fun _ => by omega,?_⟩
    intro i a inside here
    have kept : args.dropLast[i]? = some a := by rw [List.getElem?_dropLast,if_pos inside,here]
    simpa using reads i a kept

variable (exact' : args.length = takers true modes) (named : chan.Named) (lettered : chan.Lettered)
include exact' named lettered

-- Where the arguments are paired, a b is reached in the state that the letters before it give, and goes through.
theorem paired_bans (paired : ArgumentsPaired data (some name) (setter netNick msg) chan modes args) (split : modes = front ++ 'b' :: back)
    (arg : args[takers true front]? = some a) : BanRuns data.pre (frontState (some name) (setter netNick msg) chan args front) 'b' a := by
  have own : applies 'b' = true := rfl
  have short := front_short exact' split own
  obtain ⟨within,silent,spoken,reads⟩ := heard_reads is read (List.ne_nil_of_length_pos (by omega))
  have enough : takers true front ≤ (heardArgs args msg).length := by
    by_cases colon : msg.trailing = none
    · rw [silent colon]
      omega
    · have := spoken colon
      omega
  obtain ⟨st,arg',-,ran,index,arg'',heard,step⟩ := paired front 'b' back split own
  obtain rfl := Option.some.inj (arg.symm.trans arg'')
  have heeded : ∀ before c after, front = before ++ c :: after → takes (signAfter true before) c = true → applies c = true := by
    intro before c after part taken
    cases passed : applies c with
    | true => rfl
    | false =>
        have none' := paired_heeded paired (by rw [split,part]; simp : modes = before ++ c :: (after ++ 'b' :: back)) taken passed 'b' (by simp)
        rw [own] at none'
        cases none'
  have chanParam := (mode_name is read).1
  obtain ⟨is',named',lettered'⟩ := front_reached named lettered chanParam within reads heeded enough ran
  rw [(mode_origin is read).2] at is'
  rw [← is']
  by_contra stuck
  rw [(step_applies named' lettered' own chanParam heard).2 stuck] at step
  cases step

end

theorem paired_iff {netNick name modes : Str} {args : List Str} {msg : Message} {chan : Channel} (is : ModeMessage name modes args msg)
    (read : decode netNick msg.render = some data) (exact' : args.length = takers true modes) (named : chan.Named) (lettered : chan.Lettered) :
    ArgumentsPaired data (some name) (setter netNick msg) chan modes args ↔ Pairable (some name) (setter netNick msg) chan modes args msg := by
  obtain ⟨pre,who⟩ := mode_origin is read
  constructor
  · intro paired
    refine ⟨fun front c back split taken passed => paired_heeded paired split taken passed,?_,?_,?_⟩
    · by_cases colon : msg.trailing = none
      · exact .inl colon
      · refine .inr ?_
        intro front c back split own
        have short := front_short exact' split own
        have some' : args ≠ [] := List.ne_nil_of_length_pos (by omega)
        obtain ⟨-,-,spoken,-⟩ := heard_reads is read some'
        obtain ⟨-,-,ended⟩ := mode_reads is read (.inr some')
        obtain ⟨st,arg,-,-,index,-,heard,-⟩ := paired front c back split own
        by_contra last
        have length := spoken colon
        rw [index,show takers true front + 2 = 0 + (heardArgs args msg).length + 2 by omega,ended] at heard
        cases heard
    · intro front back split sign
      have short := front_short exact' split (c := 'b') rfl
      have arg := List.getElem?_eq_getElem (show takers true front < args.length by omega)
      have runs := paired_bans is read exact' named lettered paired split arg rfl
      rw [frontState,sign,if_pos rfl,pre] at runs
      intro none'
      exact runs (by rw [none']; rfl)
    · intro front back arg split sign here
      have runs := paired_bans is read exact' named lettered paired split here rfl
      rw [frontState,sign] at runs
      exact runs
  · intro pairable front c back split own
    have short := front_short exact' split own
    have some' : args ≠ [] := List.ne_nil_of_length_pos (by omega)
    obtain ⟨within,silent,spoken,reads⟩ := heard_reads is read some'
    obtain ⟨mode,-,-⟩ := mode_reads is read (.inr some')
    have chanParam := (mode_name is read).1
    have enough : takers true front < (heardArgs args msg).length := by
      rcases pairable.heard with colon | follows
      · rw [silent colon]
        omega
      · have more := follows front c back split own
        by_cases colon : msg.trailing = none
        · rw [silent colon]
          omega
        · have := spoken colon
          omega
    have heeded : ∀ before d after, front = before ++ d :: after → takes (signAfter true before) d = true → applies d = true := by
      intro before d after part taken
      cases passed : applies d with
      | true => rfl
      | false =>
          have none' := pairable.heeded before d (after ++ c :: back) (by rw [split,part]; simp) taken passed c (by simp)
          rw [own] at none'
          cases none'
    have bans : ∀ before after a, modes = before ++ 'b' :: after → args[takers true before]? = some a →
        BanRuns data.pre (frontState (some name) (setter netNick msg) chan args before) 'b' a := by
      intro before after a part here _
      cases sign : signAfter true before with
      | true =>
          have from' := pairable.origin before after part sign
          rw [frontState,sign,if_pos rfl,pre]
          simpa using from'
      | false =>
          have search := pairable.searchable before after a part sign here
          rw [frontState,sign]
          exact search
    obtain ⟨st,ran⟩ := front_runs named lettered chanParam within reads heeded (Nat.le_of_lt enough) (by
      intro before after a part here
      rw [who]
      exact bans before (after ++ c :: back) a (by rw [split,part]; simp) here)
    obtain ⟨at',named',lettered'⟩ := front_reached named lettered chanParam within reads heeded (Nat.le_of_lt enough) ran
    rw [who] at at'
    have index : st.argIndex = takers true front := by rw [at']; rfl
    have sign : st.plus = signAfter true front := by rw [at']; rfl
    obtain ⟨a,arg⟩ : ∃ a, args[takers true front]? = some a := ⟨_,List.getElem?_eq_getElem (by omega)⟩
    have heard := reads _ a enough arg
    rw [← index] at heard
    refine ⟨st,a,mode,ran,index,arg,heard,?_⟩
    have step := (step_applies named' lettered' own chanParam heard).1 (by
      rintro rfl
      exact at' ▸ bans front back a split arg rfl)
    rw [step,who,sign]

-- For any records, any mode string and the arguments that its letters take: the handler goes through
-- the string, and each o, v and b has its own argument exactly when they can be paired.
theorem mode_arguments_paired (net : Network) (named : ∀ chan ∈ net.chans, Channel.Named chan) (name modes : Str) (args : List Str) (msg : Message)
    (is : ModeMessage name modes args msg) (exact' : args.length = takers true modes) (chan : Channel)
    (recorded : first Channel.key (some (fold name)) net.chans = some chan) (lettered : chan.Lettered) :
    ∃ data place, decode net.nick msg.render = some data ∧
      (slot data.cParams 1 = some (some modes) → trollTrigUpdateMode net data =
        (modes.foldlM (modeStep data) ⟨true,0,chan⟩).map (fun st => (net.modifyChan place (fun _ => st.chan),[]))) ∧
      (ArgumentsPaired data (some name) (setter net.nick msg) chan modes args ↔
        Pairable (some name) (setter net.nick msg) chan modes args msg) := by
  obtain ⟨data,read,-⟩ := decode_readout net.nick msg is.readable
  obtain ⟨place,found,here⟩ := first_recorded recorded
  have own := named chan (List.mem_of_getElem? here)
  refine ⟨data,place,read,?_,paired_iff is read exact' own lettered⟩
  intro mode
  exact update_mode_runs (mode_name is read).1 mode (by rw [networkChannelFind,find_channel named,found]) here

-- A message for #c that says something of ann in the end.
def argsOnC (modes : Str) (args : List Str) : Message :=
  ⟨some (.mask "op".toList "o".toList "h".toList),"MODE".toList,"#c".toList :: modes :: args,none⟩

theorem argsOnC_message (short : modes = "-mo".toList ∧ args = ["ann".toList] ∨ modes = "+ko".toList ∧ args = ["key".toList,"ann".toList]) :
    ModeMessage "#c".toList modes args (argsOnC modes args) := by
  have each : ∀ middle ∈ (argsOnC modes args).middles, middle ≠ [] ∧ ' ' ∉ middle ∧ middle.head? ≠ some ':' := by
    rcases short with ⟨rfl,rfl⟩ | ⟨rfl,rfl⟩ <;> decide
  refine ⟨⟨?_,by show Word "MODE".toList; unfold Word; decide,fun middle member => each middle member,.inl (by simp [argsOnC]),?_⟩,rfl,
    by simp [argsOnC]⟩
  · intro origin same
    cases same
    exact ⟨by show '!' ∉ _ ∧ '@' ∉ _; decide,by decide⟩
  · rcases short with ⟨rfl,rfl⟩ | ⟨rfl,rfl⟩ <;> decide

theorem deop_after_moderation : ∃ data, decode (opOnC (some "o".toList)).nick (argsOnC "-mo".toList ["ann".toList]).render = some data ∧
    ∃ chan, (opOnC (some "o".toList)).chans = [chan] ∧ ArgumentsPaired data (some "#c".toList) (some "op".toList) chan "-mo".toList ["ann".toList] := by
  obtain ⟨data,place,read,-,exact'⟩ := mode_arguments_paired (opOnC (some "o".toList)) (opOnC_named _) "#c".toList "-mo".toList ["ann".toList] _
    (argsOnC_message (.inl ⟨rfl,rfl⟩)) (by decide) _ rfl (opOnC_lettered _ (by simp [opOnC]))
  refine ⟨data,read,_,rfl,exact'.mpr ⟨?_,.inl rfl,?_,?_⟩⟩
  · intro front c back split taken passed
    have inside : c ∈ "-mo".toList := by simp [split]
    have all : ∀ c ∈ "-mo".toList, ∀ plus, takes plus c = true → applies c = true := by decide
    rw [all c inside _ taken] at passed
    cases passed
  · intro front back split
    have inside : 'b' ∈ "-mo".toList := by simp [split]
    exact absurd inside (by decide)
  · intro front back arg split
    have inside : 'b' ∈ "-mo".toList := by simp [split]
    exact absurd inside (by decide)

-- The o takes the key.
theorem key_taken_for_nick : ¬∀ data, decode (opOnC (some "o".toList)).nick (argsOnC "+ko".toList ["key".toList,"ann".toList]).render = some data →
    ∀ chan ∈ (opOnC (some "o".toList)).chans,
      ArgumentsPaired data (some "#c".toList) (some "op".toList) chan "+ko".toList ["key".toList,"ann".toList] := by
  intro all
  have is := argsOnC_message (.inr ⟨rfl,rfl⟩)
  obtain ⟨data,read,-⟩ := decode_readout (opOnC (some "o".toList)).nick _ is.readable
  have paired := all data read _ (List.mem_singleton.mpr rfl)
  have split : "+ko".toList = ['+'] ++ 'k' :: ['o'] := rfl
  have passed := paired_heeded paired split (by decide) (by decide)
  exact absurd (passed 'o' (by simp)) (by decide)

end Trollbot.Irc
