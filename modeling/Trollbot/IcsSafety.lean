import Trollbot.IcsDispatch

-- What the handlers of the chess server read of a line and of the game.
namespace Trollbot.Ics
open Framing Rounds Runs Tssv

-- The tokens that a handler takes and the game that it writes to are there.
def Reads (st : Session) (data : IcsData) : MsgHandler → Prop
  | .icsInternalNotify => st.ics.triggerTable.events .notify = [] ∨ (token data 1).isSome
  | .icsInternalMyName => ((token data 5).bind id).isSome
  | .icsInternalBoardGetInfo => (newIcsGame data).isSome
  | .icsInternalEndgame => ∃ game, st.ics.game.head? = some game ∧ (endGame data game).isSome
  | _ => True

-- Of every handler that a line calls, where the calls before it have come back.
def Unbroken (scripts : Nat → Session → IcsData → Option (List Str)) (st : Session) (buffer : Str) : Prop :=
  ∀ front trig rest handler next out, st.ics.triggerTable.msg = front ++ trig :: rest →
    msgLoop scripts st ⟨buffer,tssvSplit buffer⟩ front = some (next,out) → matchwilds (some buffer) trig.mask = some 0 →
    trig.handler = some handler → Reads next ⟨buffer,tssvSplit buffer⟩ handler

def Safe (scripts : Nat → Session → IcsData → Option (List Str)) (w : Watch) : Event → Prop
  | .line buffer => w.session.tsock = .connected → Unbroken scripts w.session buffer
  | _ => True

-- The words of a line. A blank at its end counts as one more.
def wordCount (buffer : Str) : Nat := (runs isBlank buffer).length + if Closed buffer then 0 else 1

-- A board has all its words and a greeting the name, and a game ends that is going on, for one trigger.
structure LineFits (st : Session) (buffer : Str) : Prop where
  board : matchwilds (some buffer) (some styleTwelveTrigger) = some 0 → 31 ≤ wordCount buffer
  name : matchwilds (some buffer) (some myNameTrigger) = some 0 → 6 ≤ wordCount buffer
  game : matchwilds (some buffer) (some endgameTrigger) = some 0 →
    st.ics.game ≠ [] ∧ (st.ics.triggerTable.msg.map (·.handler)).count (some .icsInternalEndgame) ≤ 1

def Fits (w : Watch) : Event → Prop
  | .line buffer => w.session.tsock = .connected → LineFits w.session buffer
  | _ => True

section
variable {data : IcsData} {found : List Str}

theorem token_there (split : data.tokens = some found) (inside : i < found.length) : ∃ word, token data i = some (some word) := by
  refine ⟨found[i],?_⟩
  simp [token,split,List.getElem?_append_left,inside]

theorem name_reads (split : data.tokens = some found) (enough : 6 ≤ found.length) (st : Session) : Reads st data .icsInternalMyName := by
  obtain ⟨word,there⟩ := token_there split (by omega : 5 < found.length)
  simp [Reads,there]

theorem mapM_some {α β : Type} {f : α → Option β} {l : List α} (all : ∀ x ∈ l, (f x).isSome) :
    ∃ result, l.mapM f = some result ∧ result.length = l.length := by
  induction l with
  | nil => exact ⟨[],rfl,rfl⟩
  | cons x rest ih =>
      obtain ⟨first,here⟩ := Option.isSome_iff_exists.mp (all x (by simp))
      obtain ⟨later,there,length⟩ := ih (fun y member => all y (by simp [member]))
      exact ⟨first :: later,by simp [List.mapM_cons,here,there],by simp [length]⟩

theorem board_reads (split : data.tokens = some found) (enough : 31 ≤ found.length) (st : Session) :
    Reads st data .icsInternalBoardGetInfo := by
  have each : ∀ i ∈ List.range 30, ((token data (i + 1)).bind id).isSome := by
    intro i member
    have inside := List.mem_range.mp member
    obtain ⟨word,there⟩ := token_there split (by omega : i + 1 < found.length)
    simp [there]
  obtain ⟨info,read,length⟩ := mapM_some each
  rw [List.length_range] at length
  have white : 16 < info.length := by omega
  have black : 17 < info.length := by omega
  unfold Reads newIcsGame
  simp only [Option.bind_eq_bind,read,Option.bind_some,List.getElem?_eq_getElem white,List.getElem?_eq_getElem black,Option.isSome_some]

theorem back_there (split : data.tokens = some found) (positive : 0 < back) (enough : back ≤ found.length) : ∃ word, wordBack data back = some word := by
  have inside : found.length - back < found.length := by omega
  refine ⟨found[found.length - back],?_⟩
  simp [wordBack,split,Nat.not_lt.mpr enough]

theorem endGame_reads (split : data.tokens = some found) (enough : 2 ≤ found.length) (game : IcsGame) : (endGame data game).isSome := by
  obtain ⟨last,first⟩ := back_there split Nat.one_pos (by omega)
  obtain ⟨before,second⟩ := back_there split Nat.two_pos enough
  simp only [endGame,first,second,Option.bind_eq_bind,Option.bind_some]
  split_ifs <;> rfl

end

theorem matches_front {front mask text : Str} (plain : ∀ c ∈ front, ¬Wildcard c) (matches' : Matches (front ++ mask) text) :
    ∃ rest, text = front ++ rest ∧ Matches mask rest := by
  induction front generalizing text with
  | nil => exact ⟨text,rfl,matches'⟩
  | cons c front ih =>
      have ordinary := plain c (by simp)
      rw [List.cons_append] at matches'
      generalize tail : front ++ mask = whole at matches'
      cases matches' with
      | plain _ later =>
          subst tail
          obtain ⟨rest,rfl,more⟩ := ih (fun d member => plain d (by simp [member])) later
          exact ⟨rest,rfl,more⟩
      | any _ => exact absurd (.inl rfl) ordinary
      | star _ _ => exact absurd (.inr (.inl rfl)) ordinary
      | word _ _ => exact absurd (.inr (.inr (.inl rfl))) ordinary
      | spaces _ _ _ => exact absurd (.inr (.inr (.inr (.inl rfl)))) ordinary
      | escaped _ => exact absurd (.inr (.inr (.inr (.inr rfl)))) ordinary

theorem copied_length (n : Nat) (s : Str) : (copyWords n s).length = n := by
  induction n generalizing s with
  | zero => rfl
  | succ n ih => simp [copyWords,ih]

-- A line of an ended game has a blank behind its first word.
theorem endgame_words (matched : matchwilds (some buffer) (some endgameTrigger) = some 0) :
    ∃ found, tssvSplit buffer = some found ∧ 2 ≤ found.length := by
  have found := wild_taken matched
  have parts : endgameTrigger = ['\x7b','G','a','m','e',' '] ++ "% (% vs. %) *\x7d*".toList := by decide
  rw [parts] at found
  obtain ⟨rest,rfl,-⟩ := matches_front (by unfold Wildcard; decide) found
  refine ⟨copyWords (listSize false ("\x7bGame ".toList ++ rest)) ("\x7bGame ".toList ++ rest),rfl,?_⟩
  rw [copied_length]
  have size : listSize false ("\x7bGame ".toList ++ rest) = 1 + listSize true rest := rfl
  have more := size_positive true rest
  omega

theorem notification_words (matched : matchwilds (some buffer) (some notificationTrigger) = some 0) :
    ∃ found, tssvSplit buffer = some found := by
  have found := wild_taken matched
  have parts : notificationTrigger = "Notification:".toList ++ ['*'] := by decide
  rw [parts] at found
  obtain ⟨rest,rfl,-⟩ := matches_front (by unfold Wildcard; decide) found
  exact ⟨_,rfl⟩

theorem split_count (split : tssvSplit buffer = some found) : found.length = wordCount buffer := by
  rw [split_some split,List.length_append,wordCount]
  split <;> rfl

theorem counted_split (enough : 2 ≤ wordCount buffer) : ∃ found, tssvSplit buffer = some found := by
  refine Option.ne_none_iff_exists'.mp ?_
  intro none'
  have word : runs isBlank buffer = [] := by simpa using runs_separators isBlank buffer [] (split_none.mp none')
  rw [wordCount,word] at enough
  split at enough
  · simp at enough
  · simp at enough

-- What the built-in triggers are bound to.
def Masked (table : IcsTriggerTable) : Prop :=
  ∀ trig ∈ table.msg, ∀ handler, trig.handler = some handler → (∃ id, handler = .script id) ∨ ∃ b ∈ msgBuiltins, key trig = key b

theorem init_masked {table : IcsTriggerTable} (masked : Masked table) : Masked (initIcsTriggers table) := by
  intro trig member handler has
  rcases List.mem_append.mp member with old | new
  · exact masked trig old handler has
  · exact .inr ⟨trig,new,rfl⟩

theorem bind_masked {table : IcsTriggerTable} (masked : Masked table) : Masked (icsBind table type mask cmd number) := by
  unfold icsBind
  split
  · exact masked
  · intro trig member handler has
    rcases List.mem_append.mp member with old | new
    · exact masked trig old handler has
    · obtain rfl := List.mem_singleton.mp new
      cases has
      exact .inl ⟨number,rfl⟩
  · exact masked

theorem rolling_masked {st : Session} (masked : Masked st.ics.triggerTable) (results : Nat → Attempt)
    (connected : icsServerConnect st results = some next) : Masked next.ics.triggerTable := by
  unfold icsServerConnect at connected
  split at connected
  · cases connected
    exact init_masked masked
  · cases connected
    exact masked
  · split at connected
    · cases connected
    · cases connected
      exact masked

section
variable {scripts : Nat → Session → IcsData → Option (List Str)} {st next : Session} {data : IcsData}

theorem msgEffect_alike (ran : msgEffect scripts handler st data = some (next,out)) : Alike st next := by
  by_cases connecting : handler = .icsInternalConnect
  · subst connecting
    replace ran : icsInternalConnect scripts st data = some (next,out) := ran
    unfold icsInternalConnect at ran
    split at ran
    · cases ran
      exact .refl st
    · obtain ⟨⟨last,shown⟩,called,same⟩ := Option.bind_eq_some_iff.mp ran
      cases same
      obtain ⟨alike,-,-⟩ := eachEvent_keeps called
      exact ⟨alike.tsock,alike.msg,alike.keys⟩
  · exact (msgEffect_keeps connecting ran).1

theorem msgCall_did (did : msgCall scripts data place trig st = some (next,out)) :
    ∃ handler shown, trig.handler = some handler ∧ msgEffect scripts handler st data = some (next,shown) := by
  obtain ⟨handler,has,did⟩ := Option.bind_eq_some_iff.mp did
  obtain ⟨⟨middle,shown⟩,ran,same⟩ := Option.map_eq_some_iff.mp did
  cases same
  exact ⟨handler,shown,has,ran⟩

theorem line_alike (ran : icsTriggerMatch scripts st data = some (next,out)) : Alike st next := by
  rw [icsTriggerMatch,eachMsg_round] at ran
  refine round_state (P := fun middle => Alike st middle) ?_ (Alike.refl st) ran
  intro place trig middle later shown did alike
  obtain ⟨handler,_,-,ran⟩ := msgCall_did did
  exact alike.trans (msgEffect_alike ran)

theorem eachEvent_game {hit : IcsTrigger EventHandler → Option Bool} {l : List (IcsTrigger EventHandler)}
    (ran : eachEvent scripts data type hit counts place l st = some (next,out)) : next.ics.game = st.ics.game := by
  rw [eachEvent_round] at ran
  refine round_state (P := fun middle => middle.ics.game = st.ics.game) ?_ rfl ran
  intro place trig middle later shown did same
  obtain ⟨handler,-,did⟩ := Option.bind_eq_some_iff.mp did
  obtain ⟨⟨before,lines⟩,ran,counted⟩ := Option.map_eq_some_iff.mp did
  cases counted
  obtain ⟨rfl,-⟩ := eventEffect_keeps ran
  dsimp only
  split
  · exact same
  · exact same

theorem msgEffect_game (other : handler ≠ .icsInternalEndgame) (ran : msgEffect scripts handler st data = some (next,out))
    (playing : st.ics.game ≠ []) : next.ics.game ≠ [] := by
  cases handler with
  | icsInternalEndgame => exact absurd rfl other
  | icsInternalLogin =>
      obtain ⟨line,-,same⟩ := Option.map_eq_some_iff.mp ran
      cases same
      exact playing
  | icsInternalEnter =>
      cases ran
      exact playing
  | icsInternalAntiAntiIdle =>
      replace ran : icsInternalAntiAntiIdle st = some (next,out) := ran
      unfold icsInternalAntiAntiIdle at ran
      split at ran
      · cases ran
        exact playing
      · cases ran
        exact playing
  | icsInternalConnect =>
      replace ran : icsInternalConnect scripts st data = some (next,out) := ran
      unfold icsInternalConnect at ran
      split at ran
      · cases ran
        exact playing
      · obtain ⟨⟨last,shown⟩,called,same⟩ := Option.bind_eq_some_iff.mp ran
        cases same
        rw [← eachEvent_game called] at playing
        exact playing
  | icsInternalTell =>
      rw [eachEvent_game ran]
      exact playing
  | icsInternalNotify =>
      rw [eachEvent_game ran]
      exact playing
  | icsInternalMyName =>
      obtain ⟨_,-,ran⟩ := Option.bind_eq_some_iff.mp ran
      obtain ⟨_,-,same⟩ := Option.bind_eq_some_iff.mp ran
      cases same
      exact playing
  | icsInternalBoardGetInfo =>
      obtain ⟨game,-,ran⟩ := Option.bind_eq_some_iff.mp ran
      rw [if_neg playing] at ran
      cases ran
      simp
  | script id =>
      obtain ⟨rfl,-⟩ := runScript_keeps ran
      exact playing

def ends (l : List (IcsTrigger MsgHandler)) : Nat := (l.map (·.handler)).count (some .icsInternalEndgame)

theorem ends_cons (trig : IcsTrigger MsgHandler) (rest : List (IcsTrigger MsgHandler)) :
    ends (trig :: rest) = ends rest + if trig.handler = some .icsInternalEndgame then 1 else 0 := by
  simp [ends,List.count_cons]

-- As long as the one trigger for it is ahead the game goes on.
theorem game_kept {front rest : List (IcsTrigger MsgHandler)} (playing : st.ics.game ≠ []) (few : ends (front ++ rest) ≤ 1)
    (ran : msgLoop scripts st data front = some (next,out)) : 0 < ends rest → next.ics.game ≠ [] := by
  rw [msgLoop,eachMsg_round] at ran
  refine (round_keeps (I := fun l middle => ends l ≤ 1 ∧ (0 < ends l → middle.ics.game ≠ [])) rest ?_ ?_ ⟨few,fun _ => playing⟩ ran).2
  · rintro trig later middle - ⟨few,going⟩
    rw [ends_cons] at few going
    exact ⟨by omega,fun ahead => going (by omega)⟩
  · rintro place trig later middle last shown - did ⟨few,going⟩
    obtain ⟨handler,_,has,ran⟩ := msgCall_did did
    rw [ends_cons] at few going
    refine ⟨by omega,?_⟩
    intro ahead
    have other : handler ≠ .icsInternalEndgame := by
      rintro rfl
      rw [if_pos has] at few
      omega
    exact msgEffect_game other ran (going (by omega))

end

-- Scripts that come back and say nothing.
def silent (_id : Nat) (_st : Session) (_data : IcsData) : Option (List Str) := some []

section
variable {scripts : Nat → Session → IcsData → Option (List Str)} {st : Session}

theorem builtin_matched {trig : IcsTrigger MsgHandler} {handler : MsgHandler} {mask : Str}
    (bound : ∀ b ∈ msgBuiltins, b.handler = some handler → b.mask = some mask) (member : b ∈ msgBuiltins) (same : key trig = key b)
    (has : trig.handler = some handler) (matched : matchwilds subject trig.mask = some 0) : matchwilds subject (some mask) = some 0 := by
  have masks : trig.mask = b.mask := congrArg Prod.fst same
  have handlers : trig.handler = b.handler := congrArg Prod.snd same
  rw [← bound b member (handlers.symm.trans has),← masks]
  exact matched

theorem line_reads (masked : Masked st.ics.triggerTable) (fits : LineFits st buffer) : Unbroken scripts st buffer := by
  intro front trig rest handler next out whole ran matched has
  rcases masked trig (by simp [whole]) handler has with ⟨number,rfl⟩ | ⟨b,member,same⟩
  · trivial
  · cases handler with
    | icsInternalNotify =>
        obtain ⟨found,split⟩ := notification_words (builtin_matched (by decide) member same has matched)
        refine .inr ?_
        rw [split,token_second split]
        rfl
    | icsInternalMyName =>
        have enough := fits.name (builtin_matched (by decide) member same has matched)
        obtain ⟨found,split⟩ := counted_split (by omega : 2 ≤ wordCount buffer)
        exact name_reads split (split_count split ▸ enough) next
    | icsInternalBoardGetInfo =>
        have enough := fits.board (builtin_matched (by decide) member same has matched)
        obtain ⟨found,split⟩ := counted_split (by omega : 2 ≤ wordCount buffer)
        exact board_reads split (split_count split ▸ enough) next
    | icsInternalEndgame =>
        have subject : matchwilds (some buffer) (some endgameTrigger) = some 0 := builtin_matched (by decide) member same has matched
        obtain ⟨found,split,enough⟩ := endgame_words subject
        obtain ⟨playing,few⟩ := fits.game subject
        rw [whole] at few
        have going := game_kept playing few ran (by rw [ends_cons,if_pos has]; omega)
        obtain ⟨game,more,list⟩ := List.exists_cons_of_ne_nil going
        exact ⟨game,by rw [list]; rfl,endGame_reads split enough game⟩
    | icsInternalLogin => trivial
    | icsInternalEnter => trivial
    | icsInternalAntiAntiIdle => trivial
    | icsInternalConnect => trivial
    | icsInternalTell => trivial
    | script number => trivial

theorem step_masked (masked : Masked st.ics.triggerTable) (event : Event) (taken : step scripts st event = some (next,out)) :
    Masked next.ics.triggerTable := by
  cases event with
  | start results =>
      simp only [step] at taken
      split at taken
      · obtain ⟨later,connected,same⟩ := Option.map_eq_some_iff.mp taken
        cases same
        exact rolling_masked masked results connected
      · cases taken
  | writable valopt =>
      simp only [step] at taken
      split at taken
      · split at taken
        · cases taken
          exact init_masked masked
        · cases taken
          exact masked
      · cases taken
  | line buffer =>
      simp only [step] at taken
      split at taken
      · have alike : Alike st next := line_alike taken
        unfold Masked
        rw [alike.msg]
        exact masked
      · cases taken
  | closed results =>
      simp only [step] at taken
      split at taken
      · obtain ⟨later,connected,same⟩ := Option.map_eq_some_iff.mp taken
        cases same
        exact rolling_masked masked results connected
      · cases taken
  | bind type mask cmd number =>
      cases taken
      exact bind_masked masked

end

-- Over any run of a server, with any scripts bound at any time.
theorem lines_unbroken (scripts : Nat → Session → IcsData → Option (List Str)) (username : Option Str) (hosts : List (Option Str))
    (events : List Event) (fits : Meets (watch scripts) Fits (.start username hosts) events) :
    Meets (watch scripts) (Safe scripts) (.start username hosts) events := by
  refine meets_invariant (fun w => Masked w.session.ics.triggerTable) ?_ ?_ ?_ fits
  · rintro w event next masked - taken
    obtain ⟨⟨session,shown⟩,did,same⟩ := Option.bind_eq_some_iff.mp taken
    have kept := step_masked masked event did
    cases same
    split
    · exact kept
    · exact kept
  · intro w event masked fits
    cases event with
    | line buffer => exact fun linked => line_reads masked (fits linked)
    | start results => trivial
    | writable valopt => trivial
    | closed results => trivial
    | bind type mask cmd number => trivial
  · intro trig member
    cases member

theorem prompt_unbroken : Meets (watch silent) (Safe silent) (.start none [fics]) [.start (fun _ => .instant),.line "fics% ".toList] := by
  apply lines_unbroken
  refine ⟨trivial,fun one first => ⟨fun _ => ⟨?_,?_,?_⟩,fun _ _ => trivial⟩⟩
  · exact fun matched => absurd matched (by decide)
  · exact fun matched => absurd matched (by decide)
  · exact fun matched => absurd matched (by decide)

-- A board of one word.
theorem short_board_breaks : ¬Meets (watch silent) (Safe silent) (.start none [fics]) [.start (fun _ => .instant),.line "<12>".toList] := by
  rintro ⟨-,meets⟩
  obtain ⟨unbroken,-⟩ := meets _ rfl
  have reads : (newIcsGame ⟨"<12>".toList,tssvSplit "<12>".toList⟩).isSome = true := unbroken rfl (msgBuiltins.take 7) (msgBuiltin styleTwelveTrigger .icsInternalBoardGetInfo)
    [msgBuiltin endgameTrigger .icsInternalEndgame] .icsInternalBoardGetInfo _ _ rfl rfl (by decide) rfl
  revert reads
  decide

end Trollbot.Ics
