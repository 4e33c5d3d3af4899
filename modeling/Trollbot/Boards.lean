import Mathlib.Algebra.Ring.Int.Defs
import Mathlib.Algebra.Ring.Nat
import Mathlib.Data.List.GetD
import Trollbot.Atoi
import Trollbot.IcsSafety
import Trollbot.IrcParse

-- The positions that a chess server shows, as it writes them and as scripts get them.
namespace Trollbot.Ics
open CBuffer Decimal Framing Rounds Runs Tssv
open ConfigEngine (atoi atoi_printed)
open IrcParse (join)

-- A row of char board[8][8], as strncpy fills it.
def strncpy (s : Str) (i : Fin 8) : Char := s.getD i nul

-- What ics_internal_board_get_info makes of the words behind the "<12>".
structure BoardInfo where
  board : Fin 8 → Fin 8 → Char
  turn : Char
  pawnDoublePushFile : Int
  whiteCanCastleShort : Int
  whiteCanCastleLong : Int
  blackCanCastleShort : Int
  blackCanCastleLong : Int
  lastIrreversibleMove : Int
  gameNumber : Int
  whiteName : Str
  blackName : Str
  myRelation : Int
  initialTime : Int
  incrementTime : Int
  whiteStrength : Int
  blackStrength : Int
  whiteTimeRemaining : Int
  blackTimeRemaining : Int
  nextMoveNumber : Int
  verboseNotation : Str
  lastMoveTime : Str
  prettyNotation : Str
  flipFieldOrientation : Int

def boardInfo (info : List Str) : BoardInfo :=
  let token := fun i => info.getD (i - 1) []
  { board := fun i => strncpy (token (i + 1))
    turn := (token 9).headD nul
    pawnDoublePushFile := atoi (token 10)
    whiteCanCastleShort := atoi (token 11)
    whiteCanCastleLong := atoi (token 12)
    blackCanCastleShort := atoi (token 13)
    blackCanCastleLong := atoi (token 14)
    lastIrreversibleMove := atoi (token 15)
    gameNumber := atoi (token 16)
    whiteName := token 17
    blackName := token 18
    myRelation := atoi (token 19)
    initialTime := atoi (token 20)
    incrementTime := atoi (token 21)
    whiteStrength := atoi (token 22)
    blackStrength := atoi (token 23)
    whiteTimeRemaining := atoi (token 24)
    blackTimeRemaining := atoi (token 25)
    nextMoveNumber := atoi (token 26)
    verboseNotation := token 27
    lastMoveTime := token 28
    prettyNotation := token 29
    flipFieldOrientation := atoi (token 30) }

-- The names are those of the first position of the list, the strengths those of the last.
def icsGetScore (ics : IcsServer) (whom : Str) : Int :=
  match ics.game.head?,ics.game.getLast? with
  | some first,some bs =>
    if tstrcasecmp whom "white".toList ≠ 0 ∧ tstrcasecmp whom "black".toList ≠ 0 ∧
        tstrcasecmp whom first.whiteName ≠ 0 ∧ tstrcasecmp whom first.blackName ≠ 0 then 0
    else if tstrcasecmp whom "white".toList = 0 ∨ tstrcasecmp whom first.whiteName = 0 then (boardInfo bs.info).whiteStrength
    else (boardInfo bs.info).blackStrength
  | _,_ => 0

-- What a position consists of: squares and words that a blank does not part, and numbers that an int holds.
abbrev Square := { c : Char // isBlank c = false ∧ c ≠ nul }
abbrev Word := { s : Str // s ≠ [] ∧ ∀ c ∈ s, isBlank c = false ∧ c ≠ nul }
abbrev CInt := { n : Int // -2 ^ 31 ≤ n ∧ n < 2 ^ 31 }

-- A position as the server has it. Some write more words behind the last one.
structure Position where
  board : Fin 8 → Fin 8 → Square
  turn : Square
  pawnDoublePushFile : CInt
  whiteCanCastleShort : CInt
  whiteCanCastleLong : CInt
  blackCanCastleShort : CInt
  blackCanCastleLong : CInt
  lastIrreversibleMove : CInt
  gameNumber : CInt
  whiteName : Word
  blackName : Word
  myRelation : CInt
  initialTime : CInt
  incrementTime : CInt
  whiteStrength : CInt
  blackStrength : CInt
  whiteTimeRemaining : CInt
  blackTimeRemaining : CInt
  nextMoveNumber : CInt
  verboseNotation : Word
  lastMoveTime : Word
  prettyNotation : Word
  flipFieldOrientation : CInt
  more : List Word

def rank (row : Fin 8 → Square) : Str := List.ofFn (fun i => (row i).val)

def Position.info (p : Position) : List Str :=
  [rank (p.board 0),rank (p.board 1),rank (p.board 2),rank (p.board 3),rank (p.board 4),rank (p.board 5),rank (p.board 6),
    rank (p.board 7),[p.turn.val],printed p.pawnDoublePushFile.val,printed p.whiteCanCastleShort.val,
    printed p.whiteCanCastleLong.val,printed p.blackCanCastleShort.val,printed p.blackCanCastleLong.val,
    printed p.lastIrreversibleMove.val,printed p.gameNumber.val,p.whiteName.val,p.blackName.val,printed p.myRelation.val,
    printed p.initialTime.val,printed p.incrementTime.val,printed p.whiteStrength.val,printed p.blackStrength.val,
    printed p.whiteTimeRemaining.val,printed p.blackTimeRemaining.val,printed p.nextMoveNumber.val,p.verboseNotation.val,
    p.lastMoveTime.val,p.prettyNotation.val,printed p.flipFieldOrientation.val]

def Position.words (p : Position) : List Str := "<12>".toList :: p.info ++ p.more.map (·.val)

def Position.line (p : Position) : Str := join p.words

-- What of a position scripts can get.
def Position.shown (p : Position) : BoardInfo :=
  { board := fun i j => (p.board i j).val
    turn := p.turn.val
    pawnDoublePushFile := p.pawnDoublePushFile.val
    whiteCanCastleShort := p.whiteCanCastleShort.val
    whiteCanCastleLong := p.whiteCanCastleLong.val
    blackCanCastleShort := p.blackCanCastleShort.val
    blackCanCastleLong := p.blackCanCastleLong.val
    lastIrreversibleMove := p.lastIrreversibleMove.val
    gameNumber := p.gameNumber.val
    whiteName := p.whiteName.val
    blackName := p.blackName.val
    myRelation := p.myRelation.val
    initialTime := p.initialTime.val
    incrementTime := p.incrementTime.val
    whiteStrength := p.whiteStrength.val
    blackStrength := p.blackStrength.val
    whiteTimeRemaining := p.whiteTimeRemaining.val
    blackTimeRemaining := p.blackTimeRemaining.val
    nextMoveNumber := p.nextMoveNumber.val
    verboseNotation := p.verboseNotation.val
    lastMoveTime := p.lastMoveTime.val
    prettyNotation := p.prettyNotation.val
    flipFieldOrientation := p.flipFieldOrientation.val }

theorem strncpy_rank (row : Fin 8 → Square) : strncpy (rank row) = fun i => (row i).val := by
  funext i
  have inside : i.val < (rank row).length := by simp only [rank,List.length_ofFn]; exact i.isLt
  rw [strncpy,List.getD_eq_getElem _ _ inside]
  exact List.getElem_ofFn inside

theorem atoi_number (n : Int) : atoi (printed n) = n := by
  have ends : NoDigit [] := by simp [NoDigit]
  have read := atoi_printed n ends
  rwa [List.append_nil] at read

theorem info_read (p : Position) : boardInfo p.info = p.shown := by
  have board : (fun i : Fin 8 => strncpy (p.info.getD (i + 1 - 1) [])) = fun i j => (p.board i j).val := by
    funext ⟨i,small⟩
    rw [← strncpy_rank]
    rcases i with _ | _ | _ | _ | _ | _ | _ | _ | i
    case succ.succ.succ.succ.succ.succ.succ.succ => omega
    all_goals rfl
  simp only [boardInfo,board,Position.shown,BoardInfo.mk.injEq]
  simp [Position.info,atoi_number]

-- The words of a line, as tssv_split finds them again.
def Clean (word : Str) : Prop := word ≠ [] ∧ ∀ c ∈ word, isBlank c = false

theorem word_clean (word : Word) : Clean word.val := ⟨word.property.1,fun c member => (word.property.2 c member).1⟩

theorem rank_clean (row : Fin 8 → Square) : Clean (rank row) := by
  refine ⟨by simp [rank],?_⟩
  intro c member
  obtain ⟨i,rfl⟩ := List.mem_ofFn.mp member
  exact (row i).property.1

theorem number_clean (n : Int) : Clean (printed n) := by
  refine ⟨printed_some n,?_⟩
  intro c member
  rcases printed_clean n c member with rfl | digit
  · rfl
  · cases blank : isBlank c with
    | false => rfl
    | true =>
        rcases (by simpa [isBlank] using blank : c = ' ' ∨ c = '\t') with rfl | rfl <;> cases digit

theorem words_clean (p : Position) : ∀ word ∈ p.words, Clean word := by
  have turn : Clean [p.turn.val] := ⟨by simp,by simpa using p.turn.property.1⟩
  have first : Clean "<12>".toList := ⟨by decide,by decide⟩
  have more : ∀ word ∈ p.more.map (·.val), Clean word := by
    intro word member
    obtain ⟨found,-,rfl⟩ := List.mem_map.mp member
    exact word_clean found
  have info : ∀ word ∈ p.info, Clean word := by
    simp [Position.info,rank_clean,number_clean,word_clean,turn]
  intro word member
  rcases List.mem_cons.mp member with rfl | member
  · exact first
  · exact (List.mem_append.mp member).elim (info word) (more word)

theorem join_runs (words : List Str) (clean : ∀ word ∈ words, Clean word) : runs isBlank (join words) = words := by
  induction words with
  | nil => exact runs_nil isBlank
  | cons word rest ih =>
      obtain ⟨some',plain⟩ := clean word (by simp)
      have alone : nonEmpty [word] = [word] := by simp [nonEmpty,some']
      cases rest with
      | nil => rw [join,runs_plain isBlank word plain,alone]
      | cons next others =>
          have again := ih (fun other member => clean other (List.mem_cons_of_mem _ member))
          rw [join,runs_append_cons isBlank word _ (by rfl),runs_plain isBlank word plain,again,alone]
          · rfl
          · simp

theorem join_closed (words : List Str) (some' : words ≠ []) (clean : ∀ word ∈ words, Clean word) : join words ≠ [] ∧ Closed (join words) := by
  induction words with
  | nil => exact absurd rfl some'
  | cons word rest ih =>
      cases rest with
      | nil =>
          obtain ⟨some',plain⟩ := clean word (by simp)
          exact ⟨some',fun c last => plain c (List.mem_of_mem_getLast? last)⟩
      | cons next others =>
          have again := ih (by simp) (fun other member => clean other (List.mem_cons_of_mem _ member))
          have blank : ∀ c ∈ [' '], isBlank c = true := by decide
          have closed := (closed_after word (join (next :: others)) blank (by simp)).mpr again
          rw [List.append_assoc,List.singleton_append] at closed
          rw [join]
          · exact ⟨by simp,closed⟩
          · simp

theorem line_split (p : Position) : tssvSplit p.line = some p.words := by
  obtain ⟨some',closed⟩ := join_closed p.words (by simp [Position.words]) (words_clean p)
  cases split : tssvSplit p.line with
  | none =>
      have blank := split_none.mp split
      have first : '<' ∈ p.line := by simp [Position.line,Position.words,Position.info,join]
      cases blank '<' first
  | some found =>
      rw [split_some split,Position.line,join_runs p.words (words_clean p),if_pos closed,List.append_nil]

def Position.game (p : Position) : IcsGame := ⟨p.info,p.whiteName.val,p.blackName.val,p.line,none,none,none,none⟩

theorem line_game (p : Position) : newIcsGame ⟨p.line,tssvSplit p.line⟩ = some p.game := by
  rw [line_split]
  rfl

-- The lines that the two triggers for games are for.
def IsBoard (buffer : Str) : Prop := matchwilds (some buffer) (some styleTwelveTrigger) = some 0
def IsEnd (buffer : Str) : Prop := matchwilds (some buffer) (some endgameTrigger) = some 0

theorem board_first (board : IsBoard buffer) : buffer.head? = some '<' := by
  have parts : styleTwelveTrigger = "<12>".toList ++ ['*'] := by decide
  have found := wild_taken board
  rw [parts] at found
  obtain ⟨rest,rfl,-⟩ := matches_front (by unfold Wildcard; decide) found
  rfl

theorem end_first (ended : IsEnd buffer) : buffer.head? = some '\x7b' := by
  have parts : endgameTrigger = ['\x7b'] ++ "Game % (% vs. %) *\x7d*".toList := by decide
  have found := wild_taken ended
  rw [parts] at found
  obtain ⟨rest,rfl,-⟩ := matches_front (by unfold Wildcard; decide) found
  rfl

theorem board_apart (board : IsBoard buffer) : ¬IsEnd buffer := by
  intro ended
  have first := board_first board
  rw [end_first ended] at first
  cases first

theorem line_board (p : Position) : IsBoard p.line := by
  have front : ∃ rest, p.line = "<12>".toList ++ rest := ⟨' ' :: join (p.info ++ p.more.map (·.val)),rfl⟩
  obtain ⟨rest,line⟩ := front
  rw [IsBoard,line]
  refine troll_wild (troll_first.mpr ?_)
  have plain : ∀ c ∈ "<12>".toList, ¬Wildcard c := by unfold Wildcard; decide
  refine .move (by simp) (.plain (plain '<' (by decide))) (.move (by simp) (.plain (plain '1' (by decide)))
    (.move (by simp) (.plain (plain '2' (by decide))) (.move (by simp) (.plain (plain '>' (by decide))) ?_)))
  cases rest with
  | nil => exact .last
  | cons c rest =>
      have last := star_move [] (c :: rest)
      simp only [List.head?_nil,ne_eq,reduceCtorEq,not_false_eq_true,decide_true,List.dropWhile_eq_nil_iff.mpr,implies_true] at last
      exact .move (by simp) last .nil

-- What a handler of the msg triggers makes of the games.
def gamesAfter (data : IcsData) (games : List IcsGame) : MsgHandler → List IcsGame
  | .icsInternalBoardGetInfo => games ++ (newIcsGame data).toList
  | .icsInternalEndgame => []
  | _ => games

-- The handlers that a line gets to.
def hitHandlers (data : IcsData) (l : List (IcsTrigger MsgHandler)) : List MsgHandler :=
  l.filterMap (fun trig => if matchwilds (some data.txtPacket) trig.mask = some 0 then trig.handler else none)

section
variable {scripts : Nat → Session → IcsData → Option (List Str)} {st next : Session} {data : IcsData}

theorem msgEffect_games (ran : msgEffect scripts handler st data = some (next,out)) :
    next.ics.game = gamesAfter data st.ics.game handler := by
  cases handler with
  | icsInternalLogin =>
      obtain ⟨line,-,same⟩ := Option.map_eq_some_iff.mp ran
      cases same
      rfl
  | icsInternalEnter =>
      cases ran
      rfl
  | icsInternalAntiAntiIdle =>
      replace ran : icsInternalAntiAntiIdle st = some (next,out) := ran
      unfold icsInternalAntiAntiIdle at ran
      split at ran
      · cases ran
        rfl
      · cases ran
        rfl
  | icsInternalConnect =>
      replace ran : icsInternalConnect scripts st data = some (next,out) := ran
      unfold icsInternalConnect at ran
      split at ran
      · cases ran
        rfl
      · obtain ⟨⟨last,shown⟩,called,same⟩ := Option.bind_eq_some_iff.mp ran
        cases same
        have kept := eachEvent_game called
        exact kept
  | icsInternalTell => exact eachEvent_game ran
  | icsInternalNotify => exact eachEvent_game ran
  | icsInternalMyName =>
      obtain ⟨_,-,ran⟩ := Option.bind_eq_some_iff.mp ran
      obtain ⟨_,-,same⟩ := Option.bind_eq_some_iff.mp ran
      cases same
      rfl
  | icsInternalBoardGetInfo =>
      obtain ⟨game,made,ran⟩ := Option.bind_eq_some_iff.mp ran
      rw [gamesAfter,made]
      split at ran
      · exact eachEvent_game ran
      · cases ran
        rfl
  | icsInternalEndgame =>
      obtain ⟨first,-,ran⟩ := Option.bind_eq_some_iff.mp ran
      obtain ⟨game,-,ran⟩ := Option.bind_eq_some_iff.mp ran
      obtain ⟨⟨last,shown⟩,-,same⟩ := Option.bind_eq_some_iff.mp ran
      cases same
      rfl
  | script id =>
      obtain ⟨rfl,-⟩ := runScript_keeps ran
      rfl

theorem eachMsg_games {l : List (IcsTrigger MsgHandler)} (ran : eachMsg scripts data place l st = some (next,out)) :
    next.ics.game = (hitHandlers data l).foldl (gamesAfter data) st.ics.game := by
  rw [eachMsg_round] at ran
  induction l generalizing place st out with
  | nil =>
      cases ran
      rfl
  | cons trig rest ih =>
      rcases round_cases ran with ⟨passed,ran⟩ | ⟨middle,first,later,called,did,ran,-⟩
      · have missed : hitHandlers data (trig :: rest) = hitHandlers data rest := by
          obtain ⟨result,matched,none'⟩ := Option.map_eq_some_iff.mp passed
          rw [hitHandlers,List.filterMap_cons,matched]
          by_cases zero : result = 0
          · subst zero
            have unhandled : trig.handler = none := by simpa using none'
            simp [unhandled,hitHandlers]
          · simp [zero,hitHandlers]
        rw [missed]
        exact ih ran
      · obtain ⟨result,matched,both⟩ := Option.map_eq_some_iff.mp called
        obtain ⟨handler,shown,has,effect⟩ := msgCall_did did
        have zero : result = 0 := by
          simp only [Bool.and_eq_true,decide_eq_true_eq] at both
          exact both.1
        have hit : hitHandlers data (trig :: rest) = handler :: hitHandlers data rest := by
          rw [hitHandlers,List.filterMap_cons,matched,zero,if_pos rfl,has]
          rfl
        rw [hit,List.foldl_cons,← msgEffect_games effect]
        exact ih ran

end

-- Without the end of a game the boards are added, as often as there are triggers for them.
theorem games_added (handlers : List MsgHandler) (goes : MsgHandler.icsInternalEndgame ∉ handlers) (games : List IcsGame) :
    handlers.foldl (gamesAfter data) games = games ++ (List.replicate (handlers.count .icsInternalBoardGetInfo) (newIcsGame data).toList).flatten := by
  induction handlers generalizing games with
  | nil => simp
  | cons handler rest ih =>
      have later := ih (fun member => goes (by simp [member]))
      rw [List.foldl_cons,later]
      by_cases board : handler = .icsInternalBoardGetInfo
      · subst board
        rw [List.count_cons_self,List.replicate_succ,List.flatten_cons,gamesAfter,List.append_assoc]
      · have other : handler ≠ .icsInternalEndgame := fun same => goes (by simp [same])
        rw [List.count_cons_of_ne board]
        cases handler with
        | icsInternalBoardGetInfo => exact absurd rfl board
        | icsInternalEndgame => exact absurd rfl other
        | _ => rfl

theorem games_ended (handlers : List MsgHandler) (ends : MsgHandler.icsInternalEndgame ∈ handlers ∨ games = [])
    (none' : MsgHandler.icsInternalBoardGetInfo ∉ handlers) : handlers.foldl (gamesAfter data) games = [] := by
  induction handlers generalizing games with
  | nil => exact ends.resolve_left (by simp)
  | cons handler rest ih =>
      refine ih ?_ (fun member => none' (by simp [member]))
      by_cases here : handler = .icsInternalEndgame
      · subst here
        exact .inr rfl
      · rcases ends with member | rfl
        · exact .inl ((List.mem_cons.mp member).resolve_left (fun same => here same.symm))
        · refine .inr ?_
          cases handler with
          | icsInternalBoardGetInfo => exact absurd List.mem_cons_self none'
          | _ => rfl

-- While the session is connected there are triggers for boards and for ends.
structure Ready (st : Session) : Prop where
  masked : Masked st.ics.triggerTable
  waits : st.tsock = .connected → ∀ b ∈ msgBuiltins, ∃ trig ∈ st.ics.triggerTable.msg, key trig = key b

theorem hit_member {trig : IcsTrigger MsgHandler} {l : List (IcsTrigger MsgHandler)} {buffer : Str} {tokens : Option (List Str)} (member : trig ∈ l)
    (same : key trig = key (msgBuiltin mask handler)) (matched : matchwilds (some buffer) (some mask) = some 0) :
    handler ∈ hitHandlers ⟨buffer,tokens⟩ l := by
  obtain ⟨masks,handlers⟩ := Prod.mk.inj same
  refine List.mem_filterMap.mpr ⟨trig,member,?_⟩
  have masked : trig.mask = some mask := masks
  rw [masked,if_pos matched]
  exact handlers

theorem hit_only {table : IcsTriggerTable} (masked : Masked table) (bound : ∀ b ∈ msgBuiltins, b.handler = some handler → b.mask = some mask)
    (builtin : ∀ id, handler ≠ .script id) {buffer : Str} {tokens : Option (List Str)} (member : handler ∈ hitHandlers ⟨buffer,tokens⟩ table.msg) :
    matchwilds (some buffer) (some mask) = some 0 := by
  obtain ⟨trig,inside,hits⟩ := List.mem_filterMap.mp member
  split at hits
  · rename_i matched
    rcases masked trig inside handler hits with ⟨id,script⟩ | ⟨b,there,same⟩
    · exact absurd script (builtin id)
    · exact builtin_matched bound there same hits matched
  · cases hits

-- What the server has shown of a game: the first position and the last.
structure Told where
  first : Position
  last : Position

-- What is said in a session: positions, ends of games, other lines, and what is not a line.
inductive Said where
  | board (p : Position)
  | ended (buffer : Str) (ends : IsEnd buffer)
  | talk (buffer : Str) (plain : ¬IsBoard buffer ∧ ¬IsEnd buffer)
  | link (event : Event) (quiet : ∀ buffer, event ≠ .line buffer)

def Said.event : Said → Event
  | .board p => .line p.line
  | .ended buffer _ | .talk buffer _ => .line buffer
  | .link event _ => event

def tell (told : Option Told) : Said → Option Told
  | .board p => some ⟨(told.map (·.first)).getD p,p⟩
  | .ended _ _ => none
  | .talk _ _ | .link _ _ => told

-- The material strength of a side, or of a player of the game.
def strength (told : Option Told) (whom : Str) : Int :=
  match told with
  | none => 0
  | some told =>
    if fold whom = fold "white".toList ∨ fold whom = fold told.first.whiteName.val then told.last.whiteStrength.val
    else if fold whom = fold "black".toList ∨ fold whom = fold told.first.blackName.val then told.last.blackStrength.val
    else 0

def Shows (told : Option Told) (ics : IcsServer) : Prop :=
  ics.game.head? = told.map (·.first.game) ∧ ics.game.getLast? = told.map (·.last.game)

theorem shows_strength (shows : Shows told ics) (whom : Str) : icsGetScore ics whom = strength told whom := by
  obtain ⟨first,last⟩ := shows
  unfold icsGetScore strength
  rw [first,last]
  cases told with
  | none => rfl
  | some told =>
      have shown : boardInfo told.last.game.info = told.last.shown := info_read told.last
      simp only [Option.map_some,shown,ne_eq,tstrcasecmp_iff]
      have white : told.first.game.whiteName = told.first.whiteName.val := rfl
      have black : told.first.game.blackName = told.first.blackName.val := rfl
      rw [white,black]
      by_cases one : fold whom = fold "white".toList ∨ fold whom = fold told.first.whiteName.val
      · rw [if_neg (by tauto),if_pos one,if_pos one]
        rfl
      · rw [if_neg one]
        by_cases two : fold whom = fold "black".toList ∨ fold whom = fold told.first.blackName.val
        · rw [if_neg (by tauto),if_neg one,if_pos two]
          rfl
        · rw [if_pos (by tauto),if_neg one,if_neg two]

theorem shows_board (shows : Shows told ics) (enough : 0 < n) (later : IcsServer) (more : later.game = ics.game ++ List.replicate n p.game) :
    Shows (tell told (.board p)) later := by
  obtain ⟨first,last⟩ := shows
  obtain ⟨k,rfl⟩ : ∃ k, n = k + 1 := ⟨n - 1,by omega⟩
  refine ⟨?_,?_⟩
  · rw [more,List.head?_append,first]
    cases told <;> rfl
  · rw [more,List.replicate_succ',← List.append_assoc,List.getLast?_append]
    cases told <;> rfl

section
variable {scripts : Nat → Session → IcsData → Option (List Str)} {st next : Session}

theorem start_ready (username : Option Str) (hosts : List (Option Str)) : Ready (Watch.start username hosts).session := by
  refine ⟨?_,nofun⟩
  intro trig member
  cases member

theorem rolling_ready (masked : Masked st.ics.triggerTable) : Ready { icsBallStartRolling st with tsock := .connected } := by
  refine ⟨init_masked masked,?_⟩
  rintro - b member
  exact ⟨b,List.mem_append_right _ member,rfl⟩

theorem connect_ready (masked : Masked st.ics.triggerTable) (results : Nat → Attempt) (connected : icsServerConnect st results = some next) :
    Ready next ∧ next.ics.game = st.ics.game := by
  refine ⟨⟨rolling_masked masked results connected,?_⟩,?_⟩
  · unfold icsServerConnect at connected
    split at connected
    · cases connected
      exact (rolling_ready masked).waits
    · cases connected
      rintro ⟨⟩
    · split at connected
      · cases connected
      · cases connected
        rintro ⟨⟩
  · unfold icsServerConnect at connected
    split at connected
    · cases connected
      rfl
    · cases connected
      rfl
    · split at connected
      · cases connected
      · cases connected
        rfl

theorem bind_waits {table : IcsTriggerTable} (waits : ∃ trig ∈ table.msg, key trig = key b) :
    ∃ trig ∈ (icsBind table type mask cmd number).msg, key trig = key b := by
  obtain ⟨trig,member,same⟩ := waits
  unfold icsBind
  split
  · exact ⟨trig,member,same⟩
  · exact ⟨trig,List.mem_append_left _ member,same⟩
  · exact ⟨trig,member,same⟩

-- What is not a line leaves the games as they are.
theorem quiet_ready (ready : Ready st) (event : Event) (quiet : ∀ buffer, event ≠ .line buffer)
    (taken : step scripts st event = some (next,out)) : Ready next ∧ next.ics.game = st.ics.game := by
  cases event with
  | start results =>
      simp only [step] at taken
      split at taken
      · obtain ⟨later,connected,same⟩ := Option.map_eq_some_iff.mp taken
        cases same
        exact connect_ready ready.masked results connected
      · cases taken
  | writable valopt =>
      simp only [step] at taken
      split at taken
      · split at taken
        · cases taken
          exact ⟨rolling_ready ready.masked,rfl⟩
        · cases taken
          exact ⟨⟨ready.masked,fun linked => by cases linked⟩,rfl⟩
      · cases taken
  | line buffer => exact absurd rfl (quiet buffer)
  | closed results =>
      simp only [step] at taken
      split at taken
      · obtain ⟨later,connected,same⟩ := Option.map_eq_some_iff.mp taken
        cases same
        exact connect_ready ready.masked results connected
      · cases taken
  | bind type mask cmd number =>
      cases taken
      exact ⟨⟨bind_masked ready.masked,fun linked b member => bind_waits (ready.waits linked b member)⟩,rfl⟩

theorem line_ready (ready : Ready st) (taken : step scripts st (.line buffer) = some (next,out)) :
    Ready next ∧ (∀ b ∈ msgBuiltins, ∃ trig ∈ st.ics.triggerTable.msg, key trig = key b) ∧
      next.ics.game = (hitHandlers ⟨buffer,tssvSplit buffer⟩ st.ics.triggerTable.msg).foldl (gamesAfter ⟨buffer,tssvSplit buffer⟩) st.ics.game := by
  simp only [step] at taken
  split at taken
  · rename_i linked
    have alike : Alike st next := line_alike taken
    refine ⟨⟨?_,?_⟩,ready.waits linked,eachMsg_games taken⟩
    · unfold Masked
      rw [alike.msg]
      exact ready.masked
    · rw [alike.msg]
      exact fun _ => ready.waits linked
  · cases taken

theorem said_shows (ready : Ready st) (shows : Shows told st.ics) (said : Said) (taken : step scripts st said.event = some (next,out)) :
    Ready next ∧ Shows (tell told said) next.ics := by
  have masks : ∀ b ∈ msgBuiltins, b.handler = some .icsInternalBoardGetInfo → b.mask = some styleTwelveTrigger := by decide
  have ends' : ∀ b ∈ msgBuiltins, b.handler = some .icsInternalEndgame → b.mask = some endgameTrigger := by decide
  cases said with
  | board p =>
      obtain ⟨later,waits,games⟩ := line_ready ready taken
      obtain ⟨trig,member,same⟩ := waits (msgBuiltin styleTwelveTrigger .icsInternalBoardGetInfo) (by decide)
      have hit : MsgHandler.icsInternalBoardGetInfo ∈ hitHandlers ⟨p.line,tssvSplit p.line⟩ st.ics.triggerTable.msg :=
        hit_member member same (line_board p)
      have goes : MsgHandler.icsInternalEndgame ∉ hitHandlers ⟨p.line,tssvSplit p.line⟩ st.ics.triggerTable.msg :=
        fun inside => board_apart (line_board p) (hit_only ready.masked ends' nofun inside)
      rw [games_added _ goes,line_game,Option.toList_some,List.flatten_replicate_singleton] at games
      exact ⟨later,shows_board shows (List.count_pos_iff.mpr hit) next.ics games⟩
  | ended buffer ends =>
      obtain ⟨later,waits,games⟩ := line_ready ready taken
      obtain ⟨trig,member,same⟩ := waits (msgBuiltin endgameTrigger .icsInternalEndgame) (by decide)
      have none' : MsgHandler.icsInternalBoardGetInfo ∉ hitHandlers ⟨buffer,tssvSplit buffer⟩ st.ics.triggerTable.msg :=
        fun inside => board_apart (hit_only ready.masked masks nofun inside) ends
      rw [games_ended _ (.inl (hit_member member same ends)) none'] at games
      exact ⟨later,by rw [games]; rfl,by rw [games]; rfl⟩
  | talk buffer plain =>
      obtain ⟨later,-,games⟩ := line_ready ready taken
      have goes : MsgHandler.icsInternalEndgame ∉ hitHandlers ⟨buffer,tssvSplit buffer⟩ st.ics.triggerTable.msg :=
        fun inside => plain.2 (hit_only ready.masked ends' nofun inside)
      have none' : MsgHandler.icsInternalBoardGetInfo ∉ hitHandlers ⟨buffer,tssvSplit buffer⟩ st.ics.triggerTable.msg :=
        fun inside => plain.1 (hit_only ready.masked masks nofun inside)
      rw [games_added _ goes,List.count_eq_zero.mpr none',List.replicate_zero,List.flatten_nil,List.append_nil] at games
      exact ⟨later,by rw [games]; exact shows.1,by rw [games]; exact shows.2⟩
  | link event quiet =>
      obtain ⟨later,games⟩ := quiet_ready ready event quiet taken
      exact ⟨later,by rw [games]; exact shows.1,by rw [games]; exact shows.2⟩

end

-- The steps of a session, without what it sends.
def hears (scripts : Nat → Session → IcsData → Option (List Str)) (st : Session) (said : Said) : Option Session :=
  (step scripts st said.event).map (·.1)

-- Over any run of a session that comes through, with any scripts, the games begin with the first position of the
-- game and end with the last, read as the server has it, and the strengths are those of the last.
theorem boards_followed (scripts : Nat → Session → IcsData → Option (List Str)) (username : Option Str) (hosts : List (Option Str))
    (said : List Said) (ran : run (hears scripts) (Watch.start username hosts).session said = some st) :
    (st.ics.game.head?.map (fun game => boardInfo game.info) = (said.foldl tell none).map (·.first.shown) ∧
      st.ics.game.getLast?.map (fun game => boardInfo game.info) = (said.foldl tell none).map (·.last.shown)) ∧
      ∀ whom, icsGetScore st.ics whom = strength (said.foldl tell none) whom := by
  suffices follows : ∀ (told : Option Told) (before : Session), Ready before → Shows told before.ics →
      run (hears scripts) before said = some st → Shows (said.foldl tell told) st.ics by
    have shows := follows none _ (start_ready username hosts) ⟨rfl,rfl⟩ ran
    refine ⟨⟨?_,?_⟩,shows_strength shows⟩
    · rw [shows.1,Option.map_map]
      exact Option.map_congr (fun told _ => info_read told.first)
    · rw [shows.2,Option.map_map]
      exact Option.map_congr (fun told _ => info_read told.last)
  clear ran
  induction said with
  | nil =>
      rintro told before - shows ran
      cases ran
      exact shows
  | cons first rest ih =>
      intro told before ready shows ran
      obtain ⟨next,heard,ran⟩ := Option.bind_eq_some_iff.mp ran
      obtain ⟨⟨later,out⟩,taken,same⟩ := Option.map_eq_some_iff.mp heard
      cases same
      obtain ⟨ready,shows⟩ := said_shows ready shows first taken
      exact ih _ _ ready shows ran

def number (n : Nat) (small : n < 2 ^ 31) : CInt := ⟨n,by omega,by omega⟩

-- An empty board, white being ahead.
def emptyBoard : Position :=
  { board := fun _ _ => ⟨'-',by decide⟩
    turn := ⟨'W',by decide⟩
    pawnDoublePushFile := ⟨-1,by decide⟩
    whiteCanCastleShort := number 0 (by decide)
    whiteCanCastleLong := number 0 (by decide)
    blackCanCastleShort := number 0 (by decide)
    blackCanCastleLong := number 0 (by decide)
    lastIrreversibleMove := number 0 (by decide)
    gameNumber := number 7 (by decide)
    whiteName := ⟨"ann".toList,by decide⟩
    blackName := ⟨"bob".toList,by decide⟩
    myRelation := number 0 (by decide)
    initialTime := number 2 (by decide)
    incrementTime := number 12 (by decide)
    whiteStrength := number 39 (by decide)
    blackStrength := number 38 (by decide)
    whiteTimeRemaining := number 119 (by decide)
    blackTimeRemaining := number 122 (by decide)
    nextMoveNumber := number 1 (by decide)
    verboseNotation := ⟨"none".toList,by decide⟩
    lastMoveTime := ⟨"(0:06)".toList,by decide⟩
    prettyNotation := ⟨"none".toList,by decide⟩
    flipFieldOrientation := number 0 (by decide)
    more := [] }

def annPlays : List Said := [.link (.start (fun _ => .instant)) nofun,.board emptyBoard]

theorem ann_ahead : ∃ st, run (hears silent) (Watch.start none [fics]).session annPlays = some st ∧ icsGetScore st.ics "Ann".toList = 39 := by
  have goes : (run (hears silent) (Watch.start none [fics]).session annPlays).isSome := by decide +kernel
  obtain ⟨st,ran⟩ := Option.isSome_iff_exists.mp goes
  refine ⟨st,ran,?_⟩
  rw [(boards_followed silent none [fics] annPlays ran).2]
  decide +kernel

end Trollbot.Ics
